/-
No run is broken off.

A run draws excerpts for the tokens without meaning and for the node at fault, and is
broken off if it misses one.  Both are nodes of the text that was read: a fault that has a
span has it from a node (`exists_node_of_span`), whether it is found in the score as it
stands or only when it is played.  The token of a node is part of a line of its text, since
no token goes on behind a line break, so there is an excerpt that shows it and no other
part of the text (`excerpt?_of_mem`).
-/
import NumberedScore.CommandLine.Run
import NumberedScore.Proofs.Playback.Straight
import NumberedScore.Proofs.Text.Excerpt
import NumberedScore.Proofs.Token

namespace NumberedScore

open Text

/-! ### Where nodes are shown -/

namespace Score

variable {source : List Char} {node : Node}

/-- **A node of a text is shown where it stands.** -/
theorem excerpt?_of_mem (h : node ∈ ofText source) : ∃ c : Cutout,
    c.text = source ∧ c.part = node.raw ∧ c.span = node.span ∧ 0 < node.raw.length ∧
      ∀ colour, (LineTable.ofText source).excerpt? node.span colour = some (c.drawn colour) := by
  obtain ⟨token, htoken, rfl⟩ := List.mem_map.1 h
  obtain ⟨hword, before, after, rfl, hstart, -⟩ := mem_tokensFrom_iff.1 htoken
  rw [Nat.zero_add] at hstart
  have hbreak : '\n' ∉ token.text := by
    intro hmem
    exact absurd (hword.2 _ hmem) (by decide)
  obtain ⟨c, htext, hpart, hbefore⟩ := Cutout.exists_cutout hbreak before after
  have hspan : c.span = token.span := by
    rw [Cutout.span, hbefore, hpart, ← hstart]
    rfl
  refine ⟨c, htext, hpart, hspan, List.length_pos_iff.2 hword.1, fun colour => ?_⟩
  have hdrawn := c.excerpt?_place colour
  rwa [htext, hspan] at hdrawn

/-- A fault that points somewhere points at a node. -/
theorem exists_node_of_span {settings : Settings} {score : Score} {fault : Fault} {span : Span}
    (h : score.perform settings = .error fault) (hspan : fault.span? = some span) :
    ∃ node ∈ score, node.span = span := by
  cases hrefusal : score.refusal? settings with
  | none =>
      obtain ⟨before, node, after, p, hplayed, -, hnode⟩ := exists_of_perform_error hrefusal h
      have hmem : node ∈ score.played settings := by
        rw [hplayed]
        exact List.mem_append_right _ List.mem_cons_self
      rw [fault_of_playNode hnode] at hspan
      exact ⟨node, mem_of_mem_played hmem, Option.some.inj hspan⟩
  | some reason =>
      obtain rfl : reason = fault := Except.error.inj ((perform_of_refusal hrefusal).symm.trans h)
      unfold refusal? at hrefusal
      split at hrefusal
      · -- what is wrong with the settings is nowhere in the score
        obtain rfl := Option.some.inj hrefusal
        exact absurd hspan (by simp [Fault.span?])
      · obtain ⟨node, hmem, hfault⟩ := List.exists_of_findSome?_eq_some hrefusal
        rw [span?_of_fault? hfault] at hspan
        exact ⟨node, hmem, Option.some.inj hspan⟩

end Score

/-! ### Runs -/

namespace CommandLine

variable {source : List Char}

theorem exists_mapM {α β : Type} {f : α → Option β} {l : List α}
    (h : ∀ a ∈ l, ∃ b, f a = some b) : ∃ r, l.mapM f = some r := by
  induction l with
  | nil => exact ⟨[], rfl⟩
  | cons a l ih =>
      obtain ⟨⟨b, hb⟩, hl⟩ := List.forall_mem_cons.1 h
      obtain ⟨r, hr⟩ := ih hl
      exact ⟨b :: r, by simp [hb, hr]⟩

theorem exists_shownIn {node : Node} (h : node ∈ Score.ofText source) :
    ∃ excerpt, shownIn? (LineTable.ofText source) node.span = some excerpt := by
  obtain ⟨c, -, -, -, -, hdrawn⟩ := Score.excerpt?_of_mem h
  exact ⟨_, by rw [shownIn?, hdrawn true, Option.map_some]⟩

theorem exists_warning {node : Node} (h : node ∈ Score.ofText source) :
    ∃ line, warning? (LineTable.ofText source) node = some line := by
  obtain ⟨excerpt, hexcerpt⟩ := exists_shownIn h
  exact ⟨_, by rw [warning?, hexcerpt, Option.bind_eq_bind, Option.bind_some]⟩

theorem exists_faultShown {settings : Settings} {fault : Fault}
    (h : (Score.ofText source).perform settings = .error fault) :
    ∃ shown, faultShown? (LineTable.ofText source) fault = some shown := by
  unfold faultShown?
  cases hspan : fault.span? with
  | none => exact ⟨"", rfl⟩
  | some span =>
      obtain ⟨node, hmem, rfl⟩ := Score.exists_node_of_span h hspan
      exact exists_shownIn hmem

/-- A run on a text comes to its end. -/
theorem exists_runOn (o : Options) (source : List Char) :
    ∃ outcome, o.runOn? source = some outcome := by
  obtain ⟨warnings, hwarnings⟩ := exists_mapM (l := (Score.ofText source).unknown)
    fun node hmem => exists_warning (List.mem_filter.1 hmem).1
  unfold Options.runOn?
  simp only [hwarnings, Option.bind_eq_bind, Option.bind_some]
  split
  · exact ⟨_, rfl⟩
  · cases o.dump with
    | nodes => exact ⟨_, rfl⟩
    | text => exact ⟨_, rfl⟩
    | events =>
        cases hperform : (Score.ofText source).perform o.settings with
        | ok performance => exact ⟨_, rfl⟩
        | error fault =>
            obtain ⟨shown, hshown⟩ := exists_faultShown hperform
            simp only [hshown, Option.map_some]
            exact ⟨_, rfl⟩

/--
**What is shown of a text is found in it.**

The excerpt for a node marks its token and has a caret below each of its characters.  Every
fault that points somewhere points at a node, so no run on a text is broken off.
-/
theorem excerpts_found (source : List Char) :
    (∀ node ∈ Score.ofText source, ∃ c : Cutout,
      c.text = source ∧ c.part = node.raw ∧ c.span = node.span ∧
        ∀ colour, (LineTable.ofText source).excerpt? node.span colour
          = some (c.shownAbove ++ c.shown colour ++ ['\n'] ++
              (List.replicate (5 + c.left.length) ' ' ++ List.replicate node.raw.length '^') ++
              ['\n'])) ∧
    (∀ settings fault span, (Score.ofText source).perform settings = .error fault →
      fault.span? = some span → ∃ node ∈ Score.ofText source, node.span = span) ∧
    ∀ o : Options, ∃ outcome, o.run? (.ok source) = some outcome := by
  refine ⟨?_, fun settings fault span h hspan => Score.exists_node_of_span h hspan,
    fun o => exists_runOn o source⟩
  intro node hmem
  obtain ⟨c, htext, hpart, hspan, hpos, hdrawn⟩ := Score.excerpt?_of_mem hmem
  refine ⟨c, htext, hpart, hspan, fun colour => ?_⟩
  rw [hdrawn colour, Cutout.drawn, Cutout.carets, hpart, Nat.max_eq_right hpos]

/-- A token without meaning that is not all of one byte, and a tempo of zero below it. -/
def misread : List Char := "1 ré?\n !0 2".toList

theorem excerpts_found_misread :
    (∃ node ∈ Score.ofText misread, node.raw = "ré?".toList ∧ ∃ c : Cutout,
      c.text = misread ∧ c.part = node.raw ∧ c.span = node.span ∧
        ∀ colour, (LineTable.ofText misread).excerpt? node.span colour
          = some (c.shownAbove ++ c.shown colour ++ ['\n'] ++
              (List.replicate (5 + c.left.length) ' ' ++ List.replicate node.raw.length '^') ++
              ['\n'])) ∧
    (Score.ofText misread).perform {} = .error (.zeroTempo ⟨8, 10⟩) ∧
    (∃ node ∈ Score.ofText misread, node.span = ⟨8, 10⟩) ∧
    (LineTable.ofText misread).excerpt? ⟨8, 10⟩ false
      = some "   1|1 ré?\n   2| !0 2\n      ^^\n".toList ∧
    ∃ outcome, ({ source := [] } : Options).run? (.ok misread) = some outcome := by
  obtain ⟨hnodes, hfaults, hruns⟩ := excerpts_found misread
  have hunknown : ∃ node ∈ Score.ofText misread, node.raw = "ré?".toList := by decide +kernel
  have hrefusal : (Score.ofText misread).refusal? {} = some (.zeroTempo ⟨8, 10⟩) := by
    decide +kernel
  have hperform := Score.perform_of_refusal hrefusal
  obtain ⟨node, hmem, hraw⟩ := hunknown
  exact ⟨⟨node, hmem, hraw, hnodes node hmem⟩, hperform, hfaults _ _ _ hperform rfl,
    by decide +kernel, hruns _⟩

end CommandLine

end NumberedScore
