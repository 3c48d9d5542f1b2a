/-
The order of playing and the music separate.

What is played is decided by the cues alone, and what it sounds like by the nodes played
and their order.  So a score with repeat signs and endings is performed like the straight
one that writes out the nodes that take effect (`perform_eq_straight`), and in that the
nodes that only direct the walk can be left out.

These are checked like all others after they are played.  But they change nothing, and
what is checked was in range before: at the start, or because the node played before was
checked (`Player.inRange` is an invariant of `playNode`).  So the check never stops at
one of them, and a fault points at the same node in both scores.
-/
import NumberedScore.Proofs.Playback.Fault
import NumberedScore.Proofs.Playback.Returns

namespace NumberedScore

variable {settings : Settings} {score : Score} {p q : Player}

/-! ### Nodes that direct the walk -/

/-- Whether a mark only directs the order of playing: bar lines and endings. -/
def Mark.directs : Mark → Bool
  | bar .. | ending _ => true
  | _ => false

/-- The nodes of a score that do more than direct the order of playing. -/
def Score.undirected (score : Score) : Score := score.filter fun node => !node.mark.directs

theorem cue_of_not_directs {mark : Mark} (h : mark.directs = false) : mark.cue = .other := by
  cases mark with
  | bar | ending => exact Bool.noConfusion h
  | _ => rfl

theorem play_of_directs {mark : Mark} (h : mark.directs = true) (tuning : Tuning) (p : Player) :
    p.play tuning mark = p := by
  cases mark with
  | bar | ending => rfl
  | _ => exact Bool.noConfusion h

/-! ### Playing nodes one after the other -/

theorem inRange_player (settings : Settings) : settings.player.inRange = true := by
  have hzero : (0 : Float).isFinite = true := rfl
  show ((0 : Float).isFinite && (0 : Float).isFinite && true) = true
  rw [hzero]
  rfl

theorem inRange_of_playNode {node : Node} (h : settings.playNode p node = .ok q) :
    q.inRange = true := by
  simp only [Settings.playNode] at h
  split at h
  · next hrange => exact Except.ok.inj h ▸ hrange
  · exact absurd h (by simp)

theorem fault_of_playNode {node : Node} {fault : Fault}
    (h : settings.playNode p node = .error fault) : fault = .outOfRange node.span := by
  simp only [Settings.playNode] at h
  split at h
  · exact absurd h (by simp)
  · exact (Except.error.inj h).symm

theorem play_of_playNode {node : Node} (h : settings.playNode p node = .ok q) :
    p.play settings.tuning node.mark = q := by
  simp only [Settings.playNode] at h
  split at h
  · exact Except.ok.inj h
  · exact absurd h (by simp)

/-- Nodes that change nothing when they are played can be left out. -/
theorem foldlM_playNode_filter {α : Type} (settings : Settings) (node : α → Node) {keep : α → Bool}
    (hstill : ∀ a, keep a = false → ∀ p : Player, p.play settings.tuning (node a).mark = p)
    (nodes : List α) (hrange : p.inRange = true) :
    (nodes.map node).foldlM settings.playNode p
      = ((nodes.filter keep).map node).foldlM settings.playNode p := by
  induction nodes generalizing p with
  | nil => rfl
  | cons a rest ih =>
      cases hkeep : keep a with
      | false =>
          have hplay : settings.playNode p (node a) = .ok p := by
            simp only [Settings.playNode, hstill a hkeep, if_pos hrange]
          rw [List.filter_cons_of_neg (by simp [hkeep]), List.map_cons, List.foldlM_cons, hplay]
          exact ih hrange
      | true =>
          rw [List.filter_cons_of_pos hkeep, List.map_cons, List.map_cons, List.foldlM_cons,
            List.foldlM_cons]
          cases hplay : settings.playNode p (node a) with
          | error fault => rfl
          | ok q => exact ih (inRange_of_playNode hplay)

/-- Nodes that only direct the walk can be left out. -/
theorem foldlM_playNode_undirected (settings : Settings) (nodes : Score)
    (hrange : p.inRange = true) :
    nodes.foldlM settings.playNode p = nodes.undirected.foldlM settings.playNode p := by
  have hstill : ∀ node : Node, (!node.mark.directs) = false →
      ∀ p : Player, p.play settings.tuning node.mark = p := by
    intro node hdirects p
    exact play_of_directs (by simpa using hdirects) settings.tuning p
  simpa [Score.undirected] using foldlM_playNode_filter settings id hstill nodes hrange

/-- Where the numbers stay in range, checking them makes no difference. -/
theorem foldl_play_of_foldlM {nodes : Score} (h : nodes.foldlM settings.playNode p = .ok q) :
    (nodes.map (·.mark)).foldl (Player.play settings.tuning) p = q := by
  induction nodes generalizing p with
  | nil => exact Except.ok.inj h
  | cons node rest ih =>
      rw [List.foldlM_cons] at h
      cases hplay : settings.playNode p node with
      | error fault =>
          rw [hplay] at h
          exact absurd h (by simp [bind, Except.bind])
      | ok next =>
          rw [hplay] at h
          rw [List.map_cons, List.foldl_cons, play_of_playNode hplay]
          exact ih h

/-- A node is played between those before it and those behind it. -/
theorem exists_between_of_foldlM {before after : Score} {node : Node}
    (h : (before ++ node :: after).foldlM settings.playNode p = .ok q) :
    ∃ mid next, before.foldlM settings.playNode p = .ok mid ∧
      settings.playNode mid node = .ok next ∧ after.foldlM settings.playNode next = .ok q := by
  rw [List.foldlM_append] at h
  cases hbefore : before.foldlM settings.playNode p with
  | error fault =>
      rw [hbefore] at h
      exact absurd h (by simp [bind, Except.bind])
  | ok mid =>
      rw [hbefore] at h
      replace h : (node :: after).foldlM settings.playNode mid = .ok q := h
      rw [List.foldlM_cons] at h
      cases hplay : settings.playNode mid node with
      | error fault =>
          rw [hplay] at h
          exact absurd h (by simp [bind, Except.bind])
      | ok next =>
          rw [hplay] at h
          exact ⟨mid, next, rfl, hplay, h⟩

/-- Of nodes that cannot all be played, one cannot be played after those before it. -/
theorem exists_of_foldlM_error {nodes : Score} {fault : Fault}
    (h : nodes.foldlM settings.playNode p = .error fault) :
    ∃ before node after q, nodes = before ++ node :: after ∧
      before.foldlM settings.playNode p = .ok q ∧ settings.playNode q node = .error fault := by
  induction nodes generalizing p with
  | nil => exact absurd h (by simp [pure, Except.pure])
  | cons node rest ih =>
      rw [List.foldlM_cons] at h
      cases hplay : settings.playNode p node with
      | error reason =>
          rw [hplay] at h
          exact ⟨[], node, rest, p, rfl, rfl, hplay.trans h⟩
      | ok next =>
          rw [hplay] at h
          obtain ⟨before, last, after, q, rfl, hbefore, hlast⟩ := ih h
          refine ⟨node :: before, last, after, q, rfl, ?_, hlast⟩
          rw [List.foldlM_cons, hplay]
          exact hbefore

/-- Visits that are passed over can be left out. -/
theorem foldlM_follow (settings : Settings) (visits : List (Visit Node)) (p : Player) :
    visits.foldlM settings.follow p
      = ((visits.filter (·.fate ≠ .skipped)).map (·.node)).foldlM settings.playNode p := by
  induction visits generalizing p with
  | nil => rfl
  | cons visit rest ih =>
      rw [List.foldlM_cons]
      by_cases hskipped : visit.fate = .skipped
      · rw [List.filter_cons_of_neg (by simp [hskipped]), Settings.follow, if_pos hskipped]
        exact ih p
      · rw [List.filter_cons_of_pos (by simp [hskipped]), Settings.follow, if_neg hskipped,
          List.map_cons, List.foldlM_cons]
        cases settings.playNode p visit.node with
        | error fault => rfl
        | ok q => exact ih q

/-! ### Scores without directions -/

/-- Without a repeat sign or an ending a walk plays every node once, in order. -/
theorem leg_of_other {α : Type} {cue : α → Cue} {nodes : List α}
    (h : ∀ node ∈ nodes, cue node = .other) (passes : Nat) (mayReturn : Bool) :
    leg cue passes mayReturn nodes {} = (nodes.map fun node => ⟨node, 1, .played⟩, none) := by
  induction nodes with
  | nil => rfl
  | cons node rest ih =>
      obtain ⟨hcue, hrest⟩ := List.forall_mem_cons.1 h
      simp only [leg, hcue, Section.meet, Section.silent, Bool.false_eq_true, if_false, ih hrest,
        List.map_cons]

theorem visits_of_other {α : Type} {cue : α → Cue} {nodes : List α}
    (h : ∀ node ∈ nodes, cue node = .other) (passes returns : Nat) :
    visits cue passes returns nodes {} = nodes.map fun node => ⟨node, 1, .played⟩ := by
  cases returns with
  | zero => rw [visits, leg_of_other h]
  | succ returns => rw [visits, leg_of_other h]

namespace Score

theorem played_of_other (h : ∀ node ∈ score, node.cue = .other) :
    played settings score = score := by
  rw [played, Score.visits, visits_of_other h]
  induction score with
  | nil => rfl
  | cons node rest ih =>
      have hrest := (List.forall_mem_cons.1 h).2
      rw [List.map_cons, List.filter_cons_of_pos (by simp), List.map_cons, ih hrest]

/-- A score is performed by playing what takes effect in it one after the other. -/
theorem perform_eq_straight (h : refusal? settings score = none) :
    score.perform settings = straight settings (score.played settings) := by
  unfold perform
  rw [h]
  simp only [walk_eq_foldlM, foldlM_follow]
  rfl

/-- A performance is what a player has played at the end of all that takes effect. -/
theorem exists_last_of_perform {performance : Performance}
    (h : score.perform settings = .ok performance) :
    ∃ last : Player, last.finish = performance ∧
      (score.played settings).foldlM settings.playNode settings.player = .ok last := by
  rw [perform_eq_straight (refusal?_of_perform h), straight] at h
  cases hplay : (score.played settings).foldlM settings.playNode settings.player with
  | error fault =>
      rw [hplay] at h
      exact absurd h (by simp [Except.map])
  | ok last =>
      rw [hplay] at h
      exact ⟨last, Except.ok.inj h, rfl⟩

/-- A score that is not refused cannot be performed because of one of its nodes. -/
theorem exists_of_perform_error {fault : Fault} (hrefusal : score.refusal? settings = none)
    (h : score.perform settings = .error fault) :
    ∃ before node after q, score.played settings = before ++ node :: after ∧
      before.foldlM settings.playNode settings.player = .ok q ∧
      settings.playNode q node = .error fault := by
  rw [perform_eq_straight hrefusal, straight] at h
  cases hplay : (score.played settings).foldlM settings.playNode settings.player with
  | error reason =>
      rw [hplay] at h
      obtain rfl : reason = fault := Except.error.inj h
      exact exists_of_foldlM_error hplay
  | ok last =>
      rw [hplay] at h
      exact absurd h (by simp [Except.map])

theorem straight_undirected (settings : Settings) (nodes : Score) :
    straight settings nodes = straight settings nodes.undirected := by
  rw [straight, foldlM_playNode_undirected settings nodes (inRange_player settings)]
  rfl

theorem cue_of_mem_undirected {node : Node} (h : node ∈ score.undirected) : node.cue = .other := by
  have hkeep := (List.mem_filter.1 h).2
  exact cue_of_not_directs (by simpa using hkeep)

/-- Every node that takes effect is one of the score. -/
theorem mem_of_mem_played {node : Node} (h : node ∈ score.played settings) : node ∈ score := by
  obtain ⟨visit, hvisit, rfl⟩ := List.mem_map.1 h
  obtain ⟨last, -, hwalked⟩ := walked_visits Node.cue settings.passes.toNat
    (returnsAllowed settings.passes.toNat score) score {}
  exact hwalked.node_mem (sound_start _ _) visit (List.mem_filter.1 hvisit).1

/-- Where there is a performance, nothing that was played is at fault. -/
theorem exists_run_of_perform {performance : Performance}
    (h : score.perform settings = .ok performance) :
    ∃ last : Player, last.finish = performance ∧
      (score.played settings).foldlM settings.playNode settings.player = .ok last ∧
      settings.fault? = none ∧ ∀ node ∈ score.played settings, node.fault? = none := by
  obtain ⟨hsettings, hscore⟩ := refusal?_eq_none_iff.1 (refusal?_of_perform h)
  obtain ⟨last, hlast, hplay⟩ := exists_last_of_perform h
  refine ⟨last, hlast, hplay, hsettings, fun node hmem => ?_⟩
  exact score_fault?_eq_none_iff.1 hscore node (mem_of_mem_played hmem)

/-- The visits of a score are those of its walk without a limit. -/
theorem walked_score_visits (settings : Settings) (h : score.length < UInt32.size) :
    ∃ last, Walked Node.cue settings.passes.toNat ⟨score, {}, none⟩ (score.visits settings) last ∧
      last.ahead = [] := by
  obtain ⟨last, hend, hwalked⟩ := walked_visits Node.cue settings.passes.toNat
    (returnsAllowed settings.passes.toNat score) score {}
  have hcovered := covered_returnsAllowed Node.cue h settings.passes.toNat_lt_size
  exact ⟨_, hwalked.unlimited (sound_start _ _) hcovered, hend⟩

/-! ### Numbered nodes

Equal nodes may stand in several places of a score.  Where it matters which one is met, the
walk is taken through the nodes with their numbers, counted from zero.
-/

/-- All visits of the walk through a score, each with the number of its node. -/
def numberedVisits (settings : Settings) (score : Score) : List (Visit (Node × Nat)) :=
  NumberedScore.visits (fun node => node.1.cue) settings.passes.toNat
    (returnsAllowed settings.passes.toNat score) score.zipIdx {}

theorem walked_numberedVisits (settings : Settings) (score : Score) :
    ∃ last : Place (Node × Nat), last.ahead = [] ∧
      Walked (fun node => node.1.cue) settings.passes.toNat
        ⟨score.zipIdx, {}, some (returnsAllowed settings.passes.toNat score)⟩
        (score.numberedVisits settings) last :=
  walked_visits ..

/-- Without their numbers these are the visits of the score. -/
theorem map_numberedVisits (settings : Settings) (score : Score) :
    (score.numberedVisits settings).map (Visit.map Prod.fst) = score.visits settings := by
  have hcue : ∀ node : Node × Nat, Node.cue node.1 = node.1.cue := fun _ => rfl
  rw [numberedVisits, visits_map hcue, List.zipIdx_map_fst]
  rfl

/-- The nodes that take effect, each with its number, in the order in which they do. -/
def numberedPlayed (settings : Settings) (score : Score) : List (Node × Nat) :=
  ((score.numberedVisits settings).filter (·.fate ≠ .skipped)).map (·.node)

/-- Without their numbers these are the nodes that take effect. -/
theorem map_numberedPlayed (settings : Settings) (score : Score) :
    (score.numberedPlayed settings).map Prod.fst = score.played settings := by
  rw [played, ← map_numberedVisits, List.filter_map, List.map_map, numberedPlayed, List.map_map]
  rfl

/-- **A score is performed like the straight score of what is played in it.** -/
theorem perform_played (settings : Settings) (h : score.length < UInt32.size)
    (hfault : score.fault? = none) :
    (∃ last, Walked Node.cue settings.passes.toNat ⟨score, {}, none⟩ (score.visits settings) last ∧
      last.ahead = []) ∧
    score.perform settings = (undirected (score.played settings)).perform settings := by
  refine ⟨walked_score_visits settings h, ?_⟩
  cases hsettings : settings.fault? with
  | some reason => simp [perform, refusal?, hsettings]
  | none =>
      have hplayed : fault? (undirected (score.played settings)) = none := by
        refine score_fault?_eq_none_iff.2 fun node hmem => ?_
        have hscore : node ∈ score := mem_of_mem_played (List.mem_filter.1 hmem).1
        exact score_fault?_eq_none_iff.1 hfault node hscore
      calc score.perform settings
          = straight settings (score.played settings) :=
            perform_eq_straight (refusal?_eq_none_iff.2 ⟨hsettings, hfault⟩)
        _ = straight settings (undirected (score.played settings)) := straight_undirected ..
        _ = straight settings (played settings (undirected (score.played settings))) := by
            rw [played_of_other fun node hmem => cue_of_mem_undirected hmem]
        _ = (undirected (score.played settings)).perform settings :=
            (perform_eq_straight (refusal?_eq_none_iff.2 ⟨hsettings, hplayed⟩)).symm

/-- An ending for each pass, and a header that stays in force across the return. -/
def twoEndings : Score := ofText "||: 1 !90 [1. 2 :|| [2. 3 |".toList

theorem perform_played_twoEndings :
    (twoEndings.length < UInt32.size ∧ twoEndings.fault? = none) ∧
      twoEndings.perform {} = (undirected (twoEndings.played {})).perform {} := by
  have h : twoEndings.length < UInt32.size := by decide +kernel
  have hfault : twoEndings.fault? = none := by decide +kernel
  exact ⟨⟨h, hfault⟩, (perform_played {} h hfault).2⟩

end Score

end NumberedScore
