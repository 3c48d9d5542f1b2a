/-
How long a walk is.

A walk without returns meets every node once.  A return makes it longer by the nodes between
the start of the section and the sign that sends the walk back, since these are met once more.
So the length of a walk is measured by the sections of a score: each can be returned to
`passes - 1` times, and no return is longer than the section (`Stepped.visitsLeft_le`).

Where sections stand one after the other they are together no longer than the score, and then
a walk meets at most `passes` times as many nodes as there are.  But a start may stand behind
another one with no end between them, and both sections reach to the same end.  The inner one
is started in one pass of the outer one only if an ending keeps it from being started in the
others, and those passes still walk through it.  So the length grows with the nesting as well
(`length_visits_le`), and scores of nested sections, each with an ending of the last pass at
its beginning, show that it does (`takes_nest`).

A performance that goes out of range ends at one of these visits, and is shorter.
-/
import Mathlib.Tactic.Ring
import NumberedScore.Proofs.Playback.Tally

namespace NumberedScore

variable {α : Type} {cue : α → Cue} {passes : Nat}

/-! ### The sections of a score -/

/-- The length of a section that starts in front of these nodes, its start included and its
end not. -/
def sectionLength (cue : α → Cue) (rest : List α) : Nat :=
  (rest.takeWhile fun node => cue node ≠ .repeatStop).length + 1

/-- The lengths of all sections, added up. -/
def sectionLengths (cue : α → Cue) : List α → Nat
  | [] => 0
  | node :: rest =>
    (if cue node = .repeatStart then sectionLength cue rest else 0) + sectionLengths cue rest

/-- How many starts stand one behind the other at most with no end of a section between them,
so many of them in front of these nodes. -/
def nesting (cue : α → Cue) (depth : Nat) : List α → Nat
  | [] => depth
  | node :: rest =>
    match cue node with
    | .repeatStart => nesting cue (depth + 1) rest
    | .repeatStop => max depth (nesting cue 0 rest)
    | _ => nesting cue depth rest

theorem sectionLength_append {crossed : List α} (h : ∀ node ∈ crossed, cue node ≠ .repeatStop)
    {stop : α} (hstop : cue stop = .repeatStop) (rest : List α) :
    sectionLength cue (crossed ++ stop :: rest) = crossed.length + 1 := by
  rw [sectionLength, List.takeWhile_append_of_pos fun node hmem => by simp [h node hmem],
    List.takeWhile_cons_of_neg (by simp [hstop]), List.append_nil]

theorem sectionLengths_le_of_suffix (cue : α → Cue) {nodes all : List α} (h : nodes <:+ all) :
    sectionLengths cue nodes ≤ sectionLengths cue all := by
  obtain ⟨front, rfl⟩ := h
  induction front with
  | nil => exact Nat.le_refl _
  | cons node front ih => exact Nat.le_trans ih (Nat.le_add_left ..)

theorem le_nesting (cue : α → Cue) (depth : Nat) (nodes : List α) :
    depth ≤ nesting cue depth nodes := by
  induction nodes generalizing depth with
  | nil => exact Nat.le_refl _
  | cons node rest ih =>
      unfold nesting
      split
      · exact Nat.le_trans (Nat.le_succ depth) (ih (depth + 1))
      · exact Nat.le_max_left ..
      · exact ih depth

/-- A node lies in no more sections than are nested. -/
theorem sectionLengths_le_nesting (cue : α → Cue) (depth : Nat) (nodes : List α) :
    depth * (nodes.takeWhile fun node => cue node ≠ .repeatStop).length + sectionLengths cue nodes
      ≤ nesting cue depth nodes * nodes.length := by
  induction nodes generalizing depth with
  | nil => simp [sectionLengths]
  | cons node rest ih =>
      have hdepth := le_nesting cue depth (node :: rest)
      rw [List.length_cons, Nat.mul_succ]
      cases hcue : cue node with
      | repeatStart =>
          have hrest := ih (depth + 1)
          simp only [nesting, sectionLengths, sectionLength, hcue, if_true] at hdepth ⊢
          have hinner := le_nesting cue (depth + 1) rest
          rw [List.takeWhile_cons_of_pos (by simp [hcue]), List.length_cons, Nat.mul_succ]
          rw [Nat.succ_mul] at hrest
          omega
      | repeatStop =>
          have hrest := ih 0
          have hmax : nesting cue 0 rest * rest.length
              ≤ max depth (nesting cue 0 rest) * rest.length :=
            Nat.mul_le_mul_right _ (Nat.le_max_right ..)
          simp only [nesting, sectionLengths, hcue] at hdepth ⊢
          rw [List.takeWhile_cons_of_neg (by simp [hcue])]
          simp only [reduceCtorEq, if_false, List.length_nil]
          omega
      | ending | other =>
          have hrest := ih depth
          simp only [nesting, sectionLengths, hcue, reduceCtorEq, if_false] at hdepth ⊢
          rw [List.takeWhile_cons_of_pos (by simp [hcue]), List.length_cons, Nat.mul_succ]
          omega

/-! ### The measure -/

/-- How many nodes the walk can still meet, counted as often as it meets them. -/
def Place.visitsLeft (cue : α → Cue) (passes : Nat) (place : Place α) : Nat :=
  place.ahead.length
    + (passes - place.memory.pass) * place.memory.start.elim 0 (sectionLength cue)
    + (passes - 1) * sectionLengths cue place.remaining

/-- **Every visit is paid for.** -/
theorem Stepped.visitsLeft_le {place next : Place α} {visit : Visit α}
    (h : Stepped cue passes place visit next) (hs : place.Sound) (ht : place.Tracked cue) :
    next.visitsLeft cue passes + 1 ≤ place.visitsLeft cue passes := by
  have hremaining : (passes - 1) * sectionLengths cue next.remaining
      ≤ (passes - 1) * sectionLengths cue place.remaining :=
    Nat.mul_le_mul_left _ (sectionLengths_le_of_suffix cue (h.remaining_suffix hs))
  unfold Place.visitsLeft
  cases h with
  | skipped | ending | played | stray =>
      dsimp only
      rw [List.length_cons]
      omega
  | @opened node rest s returns hcue =>
      -- the section is no longer one of those to come
      have hsections := Nat.mul_le_mul_left (passes - 1)
        (sectionLengths_le_of_suffix cue hs.ahead_suffix)
      simp only [sectionLengths, hcue, if_true, Nat.mul_add] at hsections
      simp only [Place.remaining, Option.getD_some, Option.elim_some, List.length_cons]
        at hsections ⊢
      omega
  | @returned node rest nodes s returns hcue hstart hpass =>
      -- the way back is the section, and this is what it can be returned to once less for
      obtain ⟨crossed, rfl, hstops⟩ : ∃ crossed, nodes = crossed ++ node :: rest ∧
          ∀ n ∈ crossed, cue n ≠ .repeatStop := by
        cases ht with
        | outside hnone => exact absurd (hnone.symm.trans hstart) (by simp)
        | @inside crossed hsome hstops =>
            exact ⟨crossed, Option.some.inj (hstart.symm.trans hsome), hstops⟩
      have hlength := sectionLength_append hstops hcue rest
      have hpasses : passes - s.pass = passes - (s.pass + 1) + 1 := by omega
      simp only [hstart, Option.elim_some, hlength, hpasses, Nat.succ_mul, List.length_append,
        List.length_cons]
      omega
  | closed =>
      simp only [Option.elim_none, List.length_cons]
      omega

/-- A walk meets no more nodes than its measure says. -/
theorem Walked.visitsLeft_le {place last : Place α} {visits : List (Visit α)}
    (h : Walked cue passes place visits last) (hs : place.Sound) (ht : place.Tracked cue) :
    last.visitsLeft cue passes + visits.length ≤ place.visitsLeft cue passes := by
  induction h with
  | here place => exact Nat.le_refl _
  | @on place next last visit later hstep _ ih =>
      have hstepped := stepped_of_step hstep
      have hrest := ih (hstepped.sound hs) (hstepped.tracked ht)
      have hone := hstepped.visitsLeft_le hs ht
      rw [List.length_cons]
      omega

/-! ### Sections that nest -/

/-- The walk leads from one place to another in so many visits. -/
def Takes (cue : α → Cue) (passes : Nat) (place : Place α) (count : Nat) (next : Place α) : Prop :=
  ∃ visits, Walked cue passes place visits next ∧ visits.length = count

theorem Takes.refl (place : Place α) : Takes cue passes place 0 place :=
  ⟨[], .here place, rfl⟩

theorem Takes.trans {place mid next : Place α} {before after : Nat}
    (h : Takes cue passes place before mid) (h' : Takes cue passes mid after next) :
    Takes cue passes place (before + after) next := by
  obtain ⟨visits, hwalked, rfl⟩ := h
  obtain ⟨visits', hwalked', rfl⟩ := h'
  exact ⟨visits ++ visits', hwalked.append hwalked', List.length_append⟩

theorem Stepped.takes {place next : Place α} {visit : Visit α}
    (h : Stepped cue passes place visit next) : Takes cue passes place 1 next :=
  ⟨[visit], .on (step_of_stepped h) (.here next), rfl⟩

/-- What belongs to another pass is met all the same. -/
theorem takes_silence (passes : Nat) {nodes : List α} (h : ∀ node ∈ nodes, cue node ≠ .repeatStop)
    {s : Section α} (hsilent : s.silent = true) (rest : List α) (returns : Option Nat) :
    Takes cue passes ⟨nodes ++ rest, s, returns⟩ nodes.length ⟨rest, s, returns⟩ := by
  induction nodes with
  | nil => exact .refl _
  | cons node later ih =>
      obtain ⟨hnode, hlater⟩ := List.forall_mem_cons.1 h
      rw [List.length_cons, Nat.add_comm]
      exact (Stepped.skipped hnode hsilent).takes.trans (ih hlater)

/-- The walk at the start of a section, in one of its passes. -/
def Place.atStart (nodes : List α) (pass : Nat) : Place α :=
  ⟨nodes, { start := some nodes, pass }, none⟩

section LastEnding

variable {ending stop : α} {crossed : List α} (hending : cue ending = .ending passes)
  (hcrossed : ∀ node ∈ crossed, cue node ≠ .repeatStop) (hstop : cue stop = .repeatStop)

include hending hcrossed hstop

/-- A section that begins with an ending of the last pass is met from its start to its end in
the passes before, and nothing behind the ending is played. -/
theorem takes_pass (rest : List α) {pass : Nat} (hpass : pass < passes) :
    Takes cue passes (.atStart (ending :: (crossed ++ stop :: rest)) pass) (crossed.length + 2)
      (.atStart (ending :: (crossed ++ stop :: rest)) (pass + 1)) := by
  let nodes := ending :: (crossed ++ stop :: rest)
  let silenced : Section α := { start := some nodes, pass, ending := some passes }
  have hsilent : silenced.silent = true := by
    simpa [silenced, Section.silent] using Nat.ne_of_gt hpass
  have hmark : Takes cue passes (.atStart nodes pass) 1 ⟨crossed ++ stop :: rest, silenced, none⟩ :=
    (Stepped.ending hending rfl).takes
  have hsilence : Takes cue passes ⟨crossed ++ stop :: rest, silenced, none⟩ crossed.length
      ⟨stop :: rest, silenced, none⟩ := takes_silence passes hcrossed hsilent _ none
  have hback : Takes cue passes ⟨stop :: rest, silenced, none⟩ 1 (.atStart nodes (pass + 1)) :=
    (Stepped.returned hstop rfl hpass (by simp)).takes
  have hall := (hmark.trans hsilence).trans hback
  rwa [Nat.add_comm 1] at hall

theorem takes_passes (rest : List α) (left : Nat) {pass : Nat} (hpass : pass + left = passes) :
    Takes cue passes (.atStart (ending :: (crossed ++ stop :: rest)) pass)
      (left * (crossed.length + 2)) (.atStart (ending :: (crossed ++ stop :: rest)) passes) := by
  induction left generalizing pass with
  | zero =>
      obtain rfl : pass = passes := hpass
      rw [Nat.zero_mul]
      exact .refl _
  | succ left ih =>
      rw [Nat.succ_mul, Nat.add_comm]
      exact (takes_pass hending hcrossed hstop rest (by omega)).trans (ih (by omega))

end LastEnding

/-- Sections one inside the other, each with an ending at its beginning, and one end for all. -/
def nest (start ending stop : α) : Nat → List α
  | 0 => [stop]
  | depth + 1 => start :: ending :: nest start ending stop depth

section Nest

variable {start ending stop : α}

theorem length_nest (start ending stop : α) (depth : Nat) :
    (nest start ending stop depth).length = 2 * depth + 1 := by
  induction depth with
  | zero => rfl
  | succ depth ih =>
      rw [nest, List.length_cons, List.length_cons, ih]
      omega

variable (hstart : cue start = .repeatStart) (hending : cue ending = .ending passes)
  (hstop : cue stop = .repeatStop)

include hstart hending

theorem nest_eq_append (stop : α) (depth : Nat) :
    ∃ front, nest start ending stop depth = front ++ [stop] ∧ front.length = 2 * depth ∧
      ∀ node ∈ front, cue node ≠ .repeatStop := by
  induction depth with
  | zero => exact ⟨[], rfl, rfl, by simp⟩
  | succ depth ih =>
      obtain ⟨front, hnest, hlength, hfront⟩ := ih
      refine ⟨start :: ending :: front, by rw [nest, hnest]; rfl, ?_, ?_⟩
      · rw [List.length_cons, List.length_cons, hlength]
        omega
      · simpa [hstart, hending] using hfront

include hstop

theorem nesting_nest (before depth : Nat) :
    nesting cue before (nest start ending stop depth) = before + depth := by
  induction depth generalizing before with
  | zero => simp [nest, nesting, hstop]
  | succ depth ih =>
      simp only [nest, nesting, hstart, hending, ih]
      omega

theorem sectionLength_nest (depth : Nat) :
    sectionLength cue (ending :: nest start ending stop depth) = 2 * depth + 2 := by
  obtain ⟨front, hnest, hlength, hfront⟩ := nest_eq_append hstart hending stop depth
  have hcrossed : ∀ node ∈ ending :: front, cue node ≠ .repeatStop := by
    simpa [hending] using hfront
  calc sectionLength cue (ending :: nest start ending stop depth)
      = sectionLength cue ((ending :: front) ++ stop :: []) := by rw [hnest, List.cons_append]
    _ = (ending :: front).length + 1 := sectionLength_append hcrossed hstop []
    _ = 2 * depth + 2 := by rw [List.length_cons, hlength]

theorem sectionLengths_nest (depth : Nat) :
    sectionLengths cue (nest start ending stop depth) = depth * (depth + 1) := by
  induction depth with
  | zero => simp [nest, sectionLengths, hstop]
  | succ depth ih =>
      simp only [nest, sectionLengths, hstart, hending, if_true, reduceCtorEq, if_false,
        sectionLength_nest hstart hending hstop, ih]
      ring

/-- Nested sections are returned to as often as they can be, each from its end. -/
theorem takes_nest (hpasses : passes ≠ 0) (depth : Nat) {s : Section α} (hsilent : s.silent = false)
    (hpass : s.start ≠ none → passes ≤ s.pass) :
    ∃ s', Takes cue passes ⟨nest start ending stop depth, s, none⟩
      (2 * depth + 1 + (passes - 1) * (depth * (depth + 1))) ⟨[], s', none⟩ := by
  induction depth generalizing s with
  | zero =>
      rw [Nat.zero_mul, Nat.mul_zero]
      cases hopen : s.start with
      | none => exact ⟨s, (Stepped.stray hstop hopen).takes⟩
      | some nodes =>
          refine ⟨_, (Stepped.closed hstop hopen fun hlt => ?_).takes⟩
          exact absurd (hpass (by simp [hopen])) (Nat.not_le_of_lt hlt)
  | succ depth ih =>
      obtain ⟨front, hnest, hlength, hfront⟩ := nest_eq_append hstart hending stop depth
      let inner := ending :: nest start ending stop depth
      let heard : Section α := { start := some inner, pass := passes, ending := some passes }
      have hopened : Takes cue passes ⟨start :: inner, s, none⟩ 1 (.atStart inner 1) :=
        (Stepped.opened hstart hsilent).takes
      have hpassed : Takes cue passes (.atStart inner 1) ((passes - 1) * (2 * depth + 2))
          (.atStart inner passes) := by
        have hcount : 1 + (passes - 1) = passes := by omega
        have hall := takes_passes hending hfront hstop [] (passes - 1) hcount
        rwa [hlength, ← hnest] at hall
      have hmark : Takes cue passes (.atStart inner passes) 1
          ⟨nest start ending stop depth, heard, none⟩ := (Stepped.ending hending rfl).takes
      have hheard : heard.silent = false := by simp [heard, Section.silent]
      obtain ⟨s', hrest⟩ := ih hheard fun _ => Nat.le_refl passes
      refine ⟨s', ?_⟩
      have hall := ((hopened.trans hpassed).trans hmark).trans hrest
      have hcount : 1 + (passes - 1) * (2 * depth + 2) + 1
            + (2 * depth + 1 + (passes - 1) * (depth * (depth + 1)))
          = 2 * (depth + 1) + 1 + (passes - 1) * ((depth + 1) * (depth + 1 + 1)) := by ring
      rwa [hcount] at hall

end Nest

/-! ### Performing a score -/

namespace Node

/-- A node with a mark and no place in a text. -/
def unplaced (mark : Mark) : Node := { span := ⟨0, 0⟩, mark }

theorem cue_unplaced_start : (unplaced (.bar false .start)).cue = .repeatStart := rfl

theorem cue_unplaced_stop : (unplaced (.bar false .stop)).cue = .repeatStop := rfl

theorem cue_unplaced_ending (pass : UInt32) :
    (unplaced (.ending pass)).cue = .ending pass.toNat := rfl

end Node

namespace Score

variable {settings : Settings}

/-- Sections one inside the other, each with an ending of the last pass at its beginning. -/
def nestedSections (settings : Settings) (depth : Nat) : Score :=
  nest (.unplaced (.bar false .start)) (.unplaced (.ending settings.passes))
    (.unplaced (.bar false .stop)) depth

theorem length_visits_le_sectionLengths (settings : Settings) (score : Score) :
    (score.visits settings).length
      ≤ score.length + (settings.passes.toNat - 1) * sectionLengths Node.cue score := by
  obtain ⟨last, -, hwalked⟩ := walked_visits Node.cue settings.passes.toNat
    (returnsAllowed settings.passes.toNat score) score {}
  have hle := hwalked.visitsLeft_le (sound_start _ _) (.outside rfl)
  exact Nat.le_trans (Nat.le_add_left ..) hle

theorem length_visits_le_nesting (settings : Settings) (score : Score) :
    (score.visits settings).length
      ≤ (1 + (settings.passes.toNat - 1) * nesting Node.cue 0 score) * score.length := by
  have hsections := sectionLengths_le_nesting Node.cue 0 score
  rw [Nat.zero_mul, Nat.zero_add] at hsections
  calc (score.visits settings).length
      ≤ score.length + (settings.passes.toNat - 1) * sectionLengths Node.cue score :=
        length_visits_le_sectionLengths settings score
    _ ≤ score.length
          + (settings.passes.toNat - 1) * (nesting Node.cue 0 score * score.length) :=
        Nat.add_le_add_left (Nat.mul_le_mul_left _ hsections) _
    _ = (1 + (settings.passes.toNat - 1) * nesting Node.cue 0 score) * score.length := by
        rw [Nat.add_mul, Nat.one_mul, Nat.mul_assoc]

theorem fault?_nestedSections (settings : Settings) (depth : Nat) :
    (nestedSections settings depth).fault? = none := by
  induction depth with
  | zero => rfl
  | succ depth ih => exact ih

theorem length_visits_nestedSections (h : settings.fault? = none) {depth : Nat}
    (hdepth : 2 * depth + 1 < UInt32.size) :
    ((nestedSections settings depth).visits settings).length
      = 2 * depth + 1 + (settings.passes.toNat - 1) * (depth * (depth + 1)) := by
  have hlength : (nestedSections settings depth).length < UInt32.size := by
    rwa [nestedSections, length_nest]
  obtain ⟨last, hwalked, hend⟩ := walked_score_visits settings hlength
  have hnested : ∃ s', Takes Node.cue settings.passes.toNat
      ⟨nestedSections settings depth, {}, none⟩
      (2 * depth + 1 + (settings.passes.toNat - 1) * (depth * (depth + 1))) ⟨[], s', none⟩ :=
    takes_nest Node.cue_unplaced_start (Node.cue_unplaced_ending _) Node.cue_unplaced_stop
      (passes_ne_zero h) depth rfl fun hne => absurd rfl hne
  obtain ⟨s', visits, hvisits, hcount⟩ := hnested
  rw [(hwalked.unique hend hvisits rfl).1, hcount]

/--
**A performance is no longer than the score and, for every section and every pass but one, the
way from its start to the next end.**  With sections that do not nest it comes to so many
passes through the score at most.  Sections nested to any depth can make it as long as this.
-/
theorem length_visits_le (h : settings.fault? = none) :
    (∀ score : Score,
      (score.visits settings).length
          ≤ score.length + (settings.passes.toNat - 1) * sectionLengths Node.cue score ∧
        (score.visits settings).length
          ≤ (1 + (settings.passes.toNat - 1) * nesting Node.cue 0 score) * score.length ∧
        (nesting Node.cue 0 score ≤ 1 →
          (score.visits settings).length ≤ settings.passes.toNat * score.length)) ∧
    ∀ depth, 2 * depth + 1 < UInt32.size →
      ∃ score : Score, score.fault? = none ∧ nesting Node.cue 0 score = depth ∧
        score.length = 2 * depth + 1 ∧ sectionLengths Node.cue score = depth * (depth + 1) ∧
        (score.visits settings).length
          = score.length + (settings.passes.toNat - 1) * sectionLengths Node.cue score := by
  refine ⟨fun score => ⟨length_visits_le_sectionLengths settings score,
    length_visits_le_nesting settings score, fun hnesting => ?_⟩, fun depth hdepth => ?_⟩
  · have hpasses := passes_ne_zero h
    calc (score.visits settings).length
        ≤ (1 + (settings.passes.toNat - 1) * nesting Node.cue 0 score) * score.length :=
          length_visits_le_nesting settings score
      _ ≤ (1 + (settings.passes.toNat - 1) * 1) * score.length :=
          Nat.mul_le_mul_right _ (Nat.add_le_add_left (Nat.mul_le_mul_left _ hnesting) 1)
      _ = settings.passes.toNat * score.length := by
          rw [Nat.mul_one, Nat.add_sub_cancel' (Nat.pos_of_ne_zero hpasses)]
  · have hlength : (nestedSections settings depth).length = 2 * depth + 1 := length_nest ..
    have hnesting : nesting Node.cue 0 (nestedSections settings depth) = 0 + depth :=
      nesting_nest Node.cue_unplaced_start (Node.cue_unplaced_ending _) Node.cue_unplaced_stop
        0 depth
    have hsections :
        sectionLengths Node.cue (nestedSections settings depth) = depth * (depth + 1) :=
      sectionLengths_nest Node.cue_unplaced_start (Node.cue_unplaced_ending _)
        Node.cue_unplaced_stop depth
    refine ⟨nestedSections settings depth, fault?_nestedSections settings depth,
      hnesting.trans (Nat.zero_add depth), hlength, hsections, ?_⟩
    rw [length_visits_nestedSections h hdepth, hlength, hsections]

/-- Each of two sections is returned to from the same end. -/
def retraced : Score := ofText "||: [2. ||: 1 :||".toList

theorem length_visits_le_retraced :
    ({} : Settings).fault? = none ∧ 2 * 2 + 1 < UInt32.size ∧
      (nesting Node.cue 0 retraced = 2 ∧ sectionLengths Node.cue retraced = 6 ∧
        (retraced.visits {}).length = 11 ∧ (retraced.visits {}).length ≤ 5 + (2 - 1) * 6) ∧
      ∃ score : Score, nesting Node.cue 0 score = 2 ∧ score.length = 2 * 2 + 1 ∧
        (score.visits {}).length = 5 + (2 - 1) * 6 := by
  have h : ({} : Settings).fault? = none := by decide +kernel
  have hdepth : 2 * 2 + 1 < UInt32.size := by decide
  have hsections : sectionLengths Node.cue retraced = 6 := by decide +kernel
  have hlength : retraced.length = 5 := by decide +kernel
  have hle := ((length_visits_le h).1 retraced).1
  rw [hsections, hlength] at hle
  obtain ⟨score, -, hnesting, hscore, hsum, hvisits⟩ := (length_visits_le h).2 2 hdepth
  rw [hscore, hsum] at hvisits
  exact ⟨h, hdepth, ⟨by decide +kernel, hsections, by decide +kernel, hle⟩,
    score, hnesting, hscore, hvisits⟩

/-- So many passes through the score are not always enough. -/
theorem retraced_exceeds_passes :
    ¬ ∀ (settings : Settings) (score : Score), settings.fault? = none →
      (score.visits settings).length ≤ settings.passes.toNat * score.length := by
  intro h
  have hle := h {} retraced (by decide +kernel)
  have hlt : ({} : Settings).passes.toNat * retraced.length < (retraced.visits {}).length := by
    decide +kernel
  exact absurd hle (Nat.not_le_of_lt hlt)

end Score

end NumberedScore
