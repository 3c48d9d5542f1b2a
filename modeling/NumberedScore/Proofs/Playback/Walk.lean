/-
The walk one node at a time.

`Stepped` lists all that meeting one node can do, guards included, and every invariant of
a walk is a case analysis on it (`stepped_of_step`).  The rest of the file is about whole
walks.  They compose and come apart at any place (`Walked.append`, `walked_append`), and
since a place decides how the walk goes on, there is one way to the end at most
(`Walked.unique`).  That way exists when returns are limited: it is the list `visits`
(`walked_visits`).  A state carried along it ends as `walk` says (`carried_iff_walk`).
-/
import NumberedScore.Playback.Walk

namespace NumberedScore

variable {α β σ ε : Type} {cue : α → Cue} {passes : Nat}

/-- What meeting one node does. -/
inductive Stepped (cue : α → Cue) (passes : Nat) : Place α → Visit α → Place α → Prop where
  /-- The node lies in an ending of another pass. -/
  | skipped {node : α} {rest : List α} {s : Section α} {returns : Option Nat}
      (hcue : cue node ≠ .repeatStop) (hsilent : s.silent = true) :
      Stepped cue passes ⟨node :: rest, s, returns⟩ ⟨node, s.pass, .skipped⟩ ⟨rest, s, returns⟩
  /-- A section starts. -/
  | opened {node : α} {rest : List α} {s : Section α} {returns : Option Nat}
      (hcue : cue node = .repeatStart) (hsilent : s.silent = false) :
      Stepped cue passes ⟨node :: rest, s, returns⟩ ⟨node, s.pass, .played⟩
        ⟨rest, { start := some rest }, returns⟩
  /-- An ending starts. -/
  | ending {node : α} {rest : List α} {s : Section α} {returns : Option Nat} {pass : Nat}
      (hcue : cue node = .ending pass) (hsilent : s.silent = false) :
      Stepped cue passes ⟨node :: rest, s, returns⟩ ⟨node, s.pass, .played⟩
        ⟨rest, { s with ending := some pass }, returns⟩
  /-- A node that means nothing to the walk takes effect. -/
  | played {node : α} {rest : List α} {s : Section α} {returns : Option Nat}
      (hcue : cue node = .other) (hsilent : s.silent = false) :
      Stepped cue passes ⟨node :: rest, s, returns⟩ ⟨node, s.pass, .played⟩ ⟨rest, s, returns⟩
  /-- A section ends that never started. -/
  | stray {node : α} {rest : List α} {s : Section α} {returns : Option Nat}
      (hcue : cue node = .repeatStop) (hstart : s.start = none) :
      Stepped cue passes ⟨node :: rest, s, returns⟩ ⟨node, s.pass, .stray⟩ ⟨rest, s, returns⟩
  /-- The walk goes back to the start of the section. -/
  | returned {node : α} {rest nodes : List α} {s : Section α} {returns : Option Nat}
      (hcue : cue node = .repeatStop) (hstart : s.start = some nodes) (hpass : s.pass < passes)
      (hreturns : returns ≠ some 0) :
      Stepped cue passes ⟨node :: rest, s, returns⟩ ⟨node, s.pass, .returned⟩
        ⟨nodes, { start := some nodes, pass := s.pass + 1 }, returns.map (· - 1)⟩
  /-- The section is over. -/
  | closed {node : α} {rest nodes : List α} {s : Section α} {returns : Option Nat}
      (hcue : cue node = .repeatStop) (hstart : s.start = some nodes)
      (hdone : s.pass < passes → returns = some 0) :
      Stepped cue passes ⟨node :: rest, s, returns⟩ ⟨node, s.pass, .played⟩
        ⟨rest, { pass := s.pass }, returns⟩

theorem meet_silent {s : Section α} {c : Cue} (hcue : c ≠ .repeatStop) (hsilent : s.silent = true)
    (passes : Nat) (mayReturn : Bool) (rest : List α) :
    s.meet passes mayReturn c rest = (.skipped, .onward s) := by
  unfold Section.meet
  split
  · exact absurd rfl hcue
  · rw [if_pos hsilent]

/-- **A step of the walk is one of seven.** -/
theorem stepped_of_step {place next : Place α} {visit : Visit α}
    (h : place.step cue passes = some (visit, next)) : Stepped cue passes place visit next := by
  obtain ⟨ahead, s, returns⟩ := place
  cases ahead with
  | nil => simp [Place.step] at h
  | cons node rest =>
      by_cases hcue : cue node = .repeatStop
      · cases hstart : s.start with
        | none =>
            simp only [Place.step, Section.meet, hcue, Section.atStop, hstart,
              Option.some.injEq, Prod.mk.injEq] at h
            obtain ⟨rfl, rfl⟩ := h
            exact .stray hcue hstart
        | some nodes =>
            by_cases hback : s.pass < passes ∧ (returns != some 0) = true
            · simp only [Place.step, Section.meet, hcue, Section.atStop, hstart, if_pos hback,
                Option.some.injEq, Prod.mk.injEq] at h
              obtain ⟨rfl, rfl⟩ := h
              exact .returned hcue hstart hback.1 (bne_iff_ne.1 hback.2)
            · simp only [Place.step, Section.meet, hcue, Section.atStop, hstart, if_neg hback,
                Option.some.injEq, Prod.mk.injEq] at h
              obtain ⟨rfl, rfl⟩ := h
              refine .closed hcue hstart fun hpass => ?_
              rcases Decidable.em (returns = some 0) with hzero | hzero
              · exact hzero
              · exact absurd ⟨hpass, bne_iff_ne.2 hzero⟩ hback
      · cases hsilent : s.silent with
        | true =>
            simp only [Place.step, meet_silent hcue hsilent, Option.some.injEq,
              Prod.mk.injEq] at h
            obtain ⟨rfl, rfl⟩ := h
            exact .skipped hcue hsilent
        | false =>
            cases hc : cue node with
            | repeatStop => exact absurd hc hcue
            | repeatStart =>
                simp [Place.step, Section.meet, hc, hsilent] at h
                obtain ⟨rfl, rfl⟩ := h
                exact .opened hc hsilent
            | ending pass =>
                simp [Place.step, Section.meet, hc, hsilent] at h
                obtain ⟨rfl, rfl⟩ := h
                exact .ending hc hsilent
            | other =>
                simp [Place.step, Section.meet, hc, hsilent] at h
                obtain ⟨rfl, rfl⟩ := h
                exact .played hc hsilent

theorem step_of_stepped {place next : Place α} {visit : Visit α}
    (h : Stepped cue passes place visit next) : place.step cue passes = some (visit, next) := by
  cases h with
  | skipped hcue hsilent => simp [Place.step, meet_silent hcue hsilent]
  | opened hcue hsilent => simp [Place.step, Section.meet, hcue, hsilent]
  | ending hcue hsilent => simp [Place.step, Section.meet, hcue, hsilent]
  | played hcue hsilent => simp [Place.step, Section.meet, hcue, hsilent]
  | stray hcue hstart => simp [Place.step, Section.meet, hcue, Section.atStop, hstart]
  | returned hcue hstart hpass hreturns =>
      simp [Place.step, Section.meet, hcue, Section.atStop, hstart, hpass, hreturns]
  | @closed node rest nodes s returns hcue hstart hdone =>
      have hback : ¬ (s.pass < passes ∧ (returns != some 0) = true) := by
        rintro ⟨hpass, hreturns⟩
        exact bne_iff_ne.1 hreturns (hdone hpass)
      simp only [Place.step, Section.meet, hcue, Section.atStop, hstart, if_neg hback]

/-! ### Whole walks -/

theorem Walked.append {place mid last : Place α} {before after : List (Visit α)}
    (h : Walked cue passes place before mid) (h' : Walked cue passes mid after last) :
    Walked cue passes place (before ++ after) last := by
  induction h with
  | here place => exact h'
  | on hstep _ ih => exact .on hstep (ih h')

/-- A walk comes apart wherever its visits do. -/
theorem walked_append {place last : Place α} {before after : List (Visit α)}
    (h : Walked cue passes place (before ++ after) last) :
    ∃ mid, Walked cue passes place before mid ∧ Walked cue passes mid after last := by
  induction before generalizing place with
  | nil => exact ⟨place, .here place, h⟩
  | cons visit before ih =>
      cases h with
      | on hstep hrest =>
          obtain ⟨mid, hbefore, hafter⟩ := ih hrest
          exact ⟨mid, .on hstep hbefore, hafter⟩

theorem step_eq_none_iff {place : Place α} :
    place.step cue passes = none ↔ place.ahead = [] := by
  obtain ⟨ahead, s, returns⟩ := place
  unfold Place.step
  cases ahead with
  | nil => simp
  | cons node rest =>
      simp only [reduceCtorEq, iff_false]
      split <;> simp

/-- Every way to the end goes on from wherever the walk has got to. -/
theorem Walked.continues {place mid last : Place α} {before visits : List (Visit α)}
    (h : Walked cue passes place before mid) (h' : Walked cue passes place visits last)
    (hend : last.ahead = []) :
    ∃ after, visits = before ++ after ∧ Walked cue passes mid after last := by
  induction h generalizing visits with
  | here place => exact ⟨visits, rfl, h'⟩
  | on hstep _ ih =>
      cases h' with
      | here =>
          rw [step_eq_none_iff.2 hend] at hstep
          exact absurd hstep (by simp)
      | on hstep' hrest' =>
          rw [hstep] at hstep'
          simp only [Option.some.injEq, Prod.mk.injEq] at hstep'
          obtain ⟨rfl, rfl⟩ := hstep'
          obtain ⟨after, rfl, hafter⟩ := ih hrest'
          exact ⟨after, rfl, hafter⟩

/-- There is one way to the end at most. -/
theorem Walked.unique {place last last' : Place α} {visits visits' : List (Visit α)}
    (h : Walked cue passes place visits last) (hend : last.ahead = [])
    (h' : Walked cue passes place visits' last') (hend' : last'.ahead = []) :
    visits = visits' ∧ last = last' := by
  obtain ⟨after, rfl, hafter⟩ := h.continues h' hend'
  cases hafter with
  | here => exact ⟨(List.append_nil visits).symm, rfl⟩
  | on hstep _ =>
      rw [step_eq_none_iff.2 hend] at hstep
      exact absurd hstep (by simp)

/-! ### How far back a walk can go

A section can be returned to only where it started, and what comes before that is never
met again.  `remaining` is what is left of the score in this sense.
-/

/-- The nodes that the walk can still meet. -/
def Place.remaining (place : Place α) : List α := place.memory.start.getD place.ahead

/-- What a walk keeps: passes are counted from one, and a section starts behind the walk. -/
structure Place.Sound (place : Place α) : Prop where
  pass_pos : 1 ≤ place.memory.pass
  ahead_suffix : place.ahead <:+ place.remaining

/-- A walk begins in a sound place. -/
theorem sound_start (nodes : List α) (returns : Option Nat) : Place.Sound ⟨nodes, {}, returns⟩ :=
  ⟨Nat.le_refl 1, List.suffix_refl nodes⟩

/-- Whether a visit starts a section. -/
def Visit.opens (cue : α → Cue) (visit : Visit α) : Bool :=
  cue visit.node == .repeatStart && visit.fate != .skipped

/-- Going one node on keeps the start of the section. -/
theorem suffix_getD_tail {start : Option (List α)} {node : α} {rest : List α}
    (h : node :: rest <:+ start.getD (node :: rest)) :
    rest <:+ start.getD rest ∧ start.getD rest <:+ start.getD (node :: rest) := by
  cases start with
  | none => exact ⟨List.suffix_refl rest, List.suffix_cons node rest⟩
  | some nodes => exact ⟨(List.suffix_cons node rest).trans h, List.suffix_refl nodes⟩

theorem Stepped.sound {place next : Place α} {visit : Visit α}
    (h : Stepped cue passes place visit next) (hs : place.Sound) : next.Sound := by
  obtain ⟨hpass, hahead⟩ := hs
  cases h with
  | opened => exact ⟨Nat.le_refl 1, List.suffix_refl _⟩
  | returned => exact ⟨Nat.le_add_left .., List.suffix_refl _⟩
  | closed => exact ⟨hpass, List.suffix_refl _⟩
  | skipped | ending | played | stray => exact ⟨hpass, (suffix_getD_tail hahead).1⟩

/-- A node met is one that could still be met. -/
theorem Stepped.node_mem {place next : Place α} {visit : Visit α}
    (h : Stepped cue passes place visit next) (hs : place.Sound) :
    visit.node ∈ place.remaining := by
  refine hs.ahead_suffix.subset ?_
  cases h <;> exact List.mem_cons_self

/-- What can still be met only shrinks. -/
theorem Stepped.remaining_suffix {place next : Place α} {visit : Visit α}
    (h : Stepped cue passes place visit next) (hs : place.Sound) :
    next.remaining <:+ place.remaining := by
  have hahead := hs.ahead_suffix
  cases h with
  | opened | closed => exact (List.suffix_cons _ _).trans hahead
  | returned _ hstart =>
      unfold Place.remaining
      rw [hstart]
      exact List.suffix_refl _
  | skipped | ending | played | stray => exact (suffix_getD_tail hahead).2

/-- A section that starts leaves its start behind. -/
theorem Stepped.opens_suffix {place next : Place α} {visit : Visit α}
    (h : Stepped cue passes place visit next) (hs : place.Sound)
    (hopens : visit.opens cue = true) : visit.node :: next.remaining <:+ place.remaining := by
  cases h with
  | opened => exact hs.ahead_suffix
  | skipped => simp [Visit.opens] at hopens
  | ending hcue | played hcue | stray hcue | returned hcue | closed hcue =>
      simp [Visit.opens, hcue] at hopens

theorem Walked.sound {place last : Place α} {visits : List (Visit α)}
    (h : Walked cue passes place visits last) (hs : place.Sound) : last.Sound := by
  induction h with
  | here place => exact hs
  | on hstep _ ih => exact ih ((stepped_of_step hstep).sound hs)

/-- Every node that a walk meets is one of those it starts with. -/
theorem Walked.node_mem {place last : Place α} {visits : List (Visit α)}
    (h : Walked cue passes place visits last) (hs : place.Sound) :
    ∀ visit ∈ visits, visit.node ∈ place.remaining := by
  induction h with
  | here place => exact fun visit hmem => absurd hmem List.not_mem_nil
  | on hstep _ ih =>
      have hstepped := stepped_of_step hstep
      intro visit hmem
      rcases List.mem_cons.1 hmem with rfl | hmem
      · exact hstepped.node_mem hs
      · exact (hstepped.remaining_suffix hs).subset (ih (hstepped.sound hs) visit hmem)

/-! ### The walk by legs -/

theorem meet_false (passes : Nat) (s : Section α) (c : Cue) (rest : List α) :
    ∃ fate s', s.meet passes false c rest = (fate, .onward s') := by
  by_cases hc : c = .repeatStop
  · cases hstart : s.start <;> simp [Section.meet, hc, Section.atStop, hstart]
  · cases hsilent : s.silent <;> cases c <;> simp_all [Section.meet]

/-- Without returns there is one leg. -/
theorem leg_false_snd (cue : α → Cue) (passes : Nat) (nodes : List α) (s : Section α) :
    (leg cue passes false nodes s).2 = none := by
  induction nodes generalizing s with
  | nil => rfl
  | cons node rest ih =>
      obtain ⟨fate, s', hmeet⟩ := meet_false passes s (cue node) rest
      simp only [leg, hmeet]
      exact ih s'

/-- A leg is a walk up to its return or to the end. -/
theorem walked_leg (cue : α → Cue) (passes : Nat) {mayReturn : Bool} (returns : Option Nat)
    (hreturns : (returns != some 0) = mayReturn) (nodes : List α) (s : Section α) :
    match leg cue passes mayReturn nodes s with
    | (met, none) => ∃ s', Walked cue passes ⟨nodes, s, returns⟩ met ⟨[], s', returns⟩
    | (met, some (next, s')) =>
      Walked cue passes ⟨nodes, s, returns⟩ met ⟨next, s', returns.map (· - 1)⟩ := by
  induction nodes generalizing s with
  | nil => exact ⟨s, .here _⟩
  | cons node rest ih =>
      subst hreturns
      cases hmeet : s.meet passes (returns != some 0) (cue node) rest with
      | mk fate way =>
          cases way with
          | back nodes s' =>
              have hstep : Place.step cue passes ⟨node :: rest, s, returns⟩
                  = some (⟨node, s.pass, fate⟩, ⟨nodes, s', returns.map (· - 1)⟩) := by
                simp [Place.step, hmeet]
              simp only [leg, hmeet]
              exact .on hstep (.here _)
          | onward s' =>
              have hstep : Place.step cue passes ⟨node :: rest, s, returns⟩
                  = some (⟨node, s.pass, fate⟩, ⟨rest, s', returns⟩) := by
                simp [Place.step, hmeet]
              have hrest := ih s'
              simp only [leg, hmeet]
              cases hleg : leg cue passes (returns != some 0) rest s' with
              | mk met goesOn =>
                  rw [hleg] at hrest
                  cases goesOn with
                  | none =>
                      obtain ⟨s'', hrest⟩ := hrest
                      exact ⟨s'', .on hstep hrest⟩
                  | some next => exact .on hstep hrest

/-- **The visits of a walk with a limit on its returns lead to the end.** -/
theorem walked_visits (cue : α → Cue) (passes returns : Nat) (nodes : List α) (s : Section α) :
    ∃ last : Place α, last.ahead = [] ∧
      Walked cue passes ⟨nodes, s, some returns⟩ (visits cue passes returns nodes s) last := by
  induction returns generalizing nodes s with
  | zero =>
      have hlimit : (some 0 != some 0) = false := rfl
      have hleg := walked_leg cue passes (some 0) hlimit nodes s
      have hone := leg_false_snd cue passes nodes s
      simp only [visits]
      cases h : leg cue passes false nodes s with
      | mk met goesOn =>
          rw [h] at hleg hone
          subst hone
          obtain ⟨s', hleg⟩ := hleg
          exact ⟨_, rfl, hleg⟩
  | succ returns ih =>
      have hlimit : (some (returns + 1) != some 0) = true := rfl
      have hleg := walked_leg cue passes (some (returns + 1)) hlimit nodes s
      simp only [visits]
      cases h : leg cue passes true nodes s with
      | mk met goesOn =>
          rw [h] at hleg
          cases goesOn with
          | none =>
              obtain ⟨s', hleg⟩ := hleg
              exact ⟨_, rfl, hleg⟩
          | some next =>
              obtain ⟨last, hend, hrest⟩ := ih next.1 next.2
              exact ⟨last, hend, hleg.append hrest⟩

/-! ### Carrying a state -/

/-- A state is carried along all visits up to the first that it refuses. -/
theorem Walked.carried {follow : σ → Visit α → Except ε σ} {place last : Place α}
    {visits : List (Visit α)} (h : Walked cue passes place visits last) (hend : last.ahead = [])
    (state : σ) : Carried cue passes follow place state (visits.foldlM follow state) := by
  induction h generalizing state with
  | here place => exact .finished (step_eq_none_iff.2 hend)
  | @on place next last visit later hstep _ ih =>
      rw [List.foldlM_cons]
      cases hfollow : follow state visit with
      | error e => exact .refused hstep hfollow
      | ok state' => exact .on hstep hfollow (ih hend state')

/-- The place and the state decide the outcome. -/
theorem Carried.unique {follow : σ → Visit α → Except ε σ} {place : Place α} {state : σ}
    {outcome outcome' : Except ε σ} (h : Carried cue passes follow place state outcome)
    (h' : Carried cue passes follow place state outcome') : outcome = outcome' := by
  induction h with
  | finished hstep => cases h' <;> simp_all
  | refused hstep hno => cases h' <;> simp_all
  | on hstep hyes _ ih =>
      cases h' with
      | finished hstep' => simp_all
      | refused hstep' hno => simp_all
      | on hstep' hyes' hrest' =>
          rw [hstep] at hstep'
          simp only [Option.some.injEq, Prod.mk.injEq] at hstep'
          obtain ⟨rfl, rfl⟩ := hstep'
          rw [hyes] at hyes'
          cases hyes'
          exact ih hrest'

/-- What every visit keeps holds at the end of the walk. -/
theorem Carried.invariant {follow : σ → Visit α → Except ε σ} {P : σ → Prop} {place : Place α}
    {state last : σ} (h : Carried cue passes follow place state (.ok last)) (hs : place.Sound)
    (hfollow : ∀ state visit next, visit.node ∈ place.remaining → P state →
      follow state visit = .ok next → P next)
    (hstate : P state) : P last := by
  generalize houtcome : Except.ok last = outcome at h
  induction h with
  | finished => exact Except.ok.inj houtcome ▸ hstate
  | refused => exact absurd houtcome (by simp)
  | on hstep hyes _ ih =>
      have hstepped := stepped_of_step hstep
      refine ih (hstepped.sound hs) ?_ ?_ houtcome
      · intro state visit next hmem
        exact hfollow state visit next ((hstepped.remaining_suffix hs).subset hmem)
      · exact hfollow _ _ _ (hstepped.node_mem hs) hstate hyes

/-- **Carrying a state with a limit on returns is what `walk` does.** -/
theorem carried_iff_walk {follow : σ → Visit α → Except ε σ} {returns : Nat} {nodes : List α}
    {s : Section α} {state : σ} {outcome : Except ε σ} :
    Carried cue passes follow ⟨nodes, s, some returns⟩ state outcome
      ↔ walk cue passes follow returns nodes s state = outcome := by
  obtain ⟨last, hend, hwalked⟩ := walked_visits cue passes returns nodes s
  have hcarried : Carried cue passes follow _ state _ := hwalked.carried hend state
  rw [← walk_eq_foldlM] at hcarried
  constructor
  · intro h
    exact hcarried.unique h
  · rintro rfl
    exact hcarried

/-! ### The same walk in another score

A walk looks at nothing but the cues of the nodes it comes to.  So it goes the same way
wherever the nodes that remain of one score correspond to those that remain of another one.
In particular nodes that carry more than the walk looks at, such as a number, are walked like
what they stand for.
-/

/-- The place that corresponds to this one when what remains of a score does. -/
def Place.along (f : List α → List β) (place : Place α) : Place β where
  ahead := f place.ahead
  memory := { place.memory with start := place.memory.start.map f }
  returns := place.returns

/-- Where a node corresponds to one with the same cue, so do the steps there. -/
theorem Stepped.along {cue : α → Cue} {cue' : β → Cue} (f : List α → List β)
    {place next : Place α} {visit : Visit α} (h : Stepped cue passes place visit next) {node' : β}
    (hcue : cue' node' = cue visit.node)
    (hahead : ∀ rest, f (visit.node :: rest) = node' :: f rest) :
    Stepped cue' passes (place.along f) ⟨node', visit.pass, visit.fate⟩ (next.along f) := by
  cases h with
  | skipped hother hsilent =>
      rw [Place.along, hahead]
      exact .skipped (fun hstop => hother (hcue.symm.trans hstop)) hsilent
  | opened hopens hsilent =>
      rw [Place.along, hahead]
      exact .opened (hcue.trans hopens) hsilent
  | ending hends hsilent =>
      rw [Place.along, hahead]
      exact .ending (hcue.trans hends) hsilent
  | played hplays hsilent =>
      rw [Place.along, hahead]
      exact .played (hcue.trans hplays) hsilent
  | stray hstop hstart =>
      rw [Place.along, hahead]
      exact .stray (hcue.trans hstop) (congrArg (Option.map f) hstart)
  | @returned node rest nodes s returns hstop hstart hpass hreturns =>
      rw [Place.along, hahead]
      exact .returned (s := { s with start := s.start.map f }) (hcue.trans hstop)
        (congrArg (Option.map f) hstart) hpass hreturns
  | closed hstop hstart hdone =>
      rw [Place.along, hahead]
      exact .closed (hcue.trans hstop) (congrArg (Option.map f) hstart) hdone

/-- The same visit of what a node stands for. -/
def Visit.map (f : α → β) (visit : Visit α) : Visit β := ⟨f visit.node, visit.pass, visit.fate⟩

/-- The same place among what the nodes stand for. -/
def Place.map (f : α → β) (place : Place α) : Place β where
  ahead := place.ahead.map f
  memory := { place.memory with start := place.memory.start.map (List.map f) }
  returns := place.returns

theorem Stepped.map {cue : β → Cue} (f : α → β) {place next : Place α} {visit : Visit α}
    (h : Stepped (fun node => cue (f node)) passes place visit next) :
    Stepped cue passes (place.map f) (visit.map f) (next.map f) :=
  h.along (List.map f) rfl fun _ => rfl

theorem Walked.map {cue : β → Cue} (f : α → β) {place last : Place α} {visits : List (Visit α)}
    (h : Walked (fun node => cue (f node)) passes place visits last) :
    Walked cue passes (place.map f) (visits.map (Visit.map f)) (last.map f) := by
  induction h with
  | here place => exact .here _
  | on hstep _ ih => exact .on (step_of_stepped ((stepped_of_step hstep).map f)) ih

/-- The visits of a walk say what is visited among what the nodes stand for. -/
theorem visits_map {cue : α → Cue} {cue' : β → Cue} {f : α → β}
    (hcue : ∀ node, cue' (f node) = cue node) (passes returns : Nat) (nodes : List α) :
    (visits cue passes returns nodes {}).map (Visit.map f)
      = visits cue' passes returns (nodes.map f) {} := by
  obtain rfl : (fun node => cue' (f node)) = cue := funext hcue
  obtain ⟨last, hend, hwalked⟩ := walked_visits (fun node => cue' (f node)) passes returns nodes {}
  obtain ⟨last', hend', hwalked'⟩ := walked_visits cue' passes returns (nodes.map f) {}
  exact ((hwalked.map f).unique (congrArg (List.map f) hend) hwalked' hend').1

theorem Carried.map {cue : β → Cue} (f : α → β) {follow : σ → Visit β → Except ε σ}
    {place : Place α} {state : σ} {outcome : Except ε σ}
    (h : Carried (fun node => cue (f node)) passes (fun state visit => follow state (visit.map f))
      place state outcome) : Carried cue passes follow (place.map f) state outcome := by
  induction h with
  | finished hstep =>
      refine .finished (step_eq_none_iff.2 ?_)
      exact congrArg (List.map f) (step_eq_none_iff.1 hstep)
  | refused hstep hno => exact .refused (step_of_stepped ((stepped_of_step hstep).map f)) hno
  | on hstep hyes _ ih => exact .on (step_of_stepped ((stepped_of_step hstep).map f)) hyes ih

end NumberedScore
