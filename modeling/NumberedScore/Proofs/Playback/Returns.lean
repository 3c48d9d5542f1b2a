/-
The limit on returns is never felt.

A walk goes back at most `passes - 1` times between one start of a section and the next,
because every return counts up the pass and only a start counts it from one again.  And
no start takes effect twice: the walk returns to what follows the last start that did, so
the starts that are still to come lie in `Place.remaining`, which loses each start with
its effect.  Hence the measure

    returnsLeft = (returns left in this section) + (passes - 1) · (starts remaining)

falls by one with every return and never rises (`Stepped.returnsLeft_le`), which bounds the
returns of a whole walk (`Walked.returnsLeft_le`).  At the outset it is at most what is
allowed, so while it is positive there is still a return to spend, and it is positive
wherever the walk wants to go back.

A walk with a limit that covers the measure is therefore a walk without one
(`Walked.unlimited`), and what is performed does not depend on the limit
(`performed_unlimited_iff`).
-/
import NumberedScore.Proofs.Playback.Walk
import NumberedScore.Playback.Performance

namespace NumberedScore

variable {α β σ ε : Type} {cue : α → Cue} {passes : Nat}

/-! ### The measure -/

/-- How often the walk may still go back before the next section starts. -/
def Place.passesLeft (passes : Nat) (place : Place α) : Nat :=
  if place.memory.start = none then 0 else passes - place.memory.pass

/-- The starts of sections that the walk can still meet. -/
def Place.startsLeft (cue : α → Cue) (place : Place α) : Nat :=
  place.remaining.countP fun node => cue node == .repeatStart

/-- How often the walk can still go back at all. -/
def Place.returnsLeft (cue : α → Cue) (passes : Nat) (place : Place α) : Nat :=
  place.passesLeft passes + (passes - 1) * place.startsLeft cue

/-- Whether a visit sends the walk back. -/
def Visit.returns (visit : Visit α) : Bool := visit.fate == .returned

theorem Place.Sound.passesLeft_le {place : Place α} (h : place.Sound) :
    place.passesLeft passes ≤ passes - 1 := by
  have hpass := h.pass_pos
  unfold Place.passesLeft
  split <;> omega

/-- Within a section every return uses up a pass. -/
theorem Stepped.passesLeft_le {place next : Place α} {visit : Visit α}
    (h : Stepped cue passes place visit next) (hopens : visit.opens cue = false) :
    next.passesLeft passes + visit.returns.toNat ≤ place.passesLeft passes := by
  cases h with
  | opened hcue => simp [Visit.opens, hcue] at hopens
  | skipped | ending | played | stray => exact Nat.le_refl _
  | returned hcue hstart hpass =>
      simp only [Place.passesLeft, hstart, Visit.returns, reduceCtorEq, if_false]
      show passes - (_ + 1) + 1 ≤ _
      omega
  | closed =>
      show 0 + 0 ≤ _
      omega

/-- A start that takes effect is used up by it. -/
theorem Stepped.startsLeft_le {place next : Place α} {visit : Visit α}
    (h : Stepped cue passes place visit next) (hs : place.Sound) :
    next.startsLeft cue + (visit.opens cue).toNat ≤ place.startsLeft cue := by
  cases hopens : visit.opens cue with
  | false => exact (h.remaining_suffix hs).sublist.countP_le
  | true =>
      have hcue : (cue visit.node == .repeatStart) = true := by
        simp only [Visit.opens, Bool.and_eq_true] at hopens
        exact hopens.1
      have hle : (visit.node :: next.remaining).countP (fun node => cue node == .repeatStart)
          ≤ place.startsLeft cue :=
        (h.opens_suffix hs hopens).sublist.countP_le
      rw [List.countP_cons, if_pos hcue] at hle
      exact hle

theorem Stepped.returns_of_opens {place next : Place α} {visit : Visit α}
    (h : Stepped cue passes place visit next) (hopens : visit.opens cue = true) :
    visit.returns = false := by
  cases h with
  | returned hcue => simp [Visit.opens, hcue] at hopens
  | _ => rfl

/-- Every step pays for its return. -/
theorem Stepped.returnsLeft_le {place next : Place α} {visit : Visit α}
    (h : Stepped cue passes place visit next) (hs : place.Sound) :
    next.returnsLeft cue passes + visit.returns.toNat ≤ place.returnsLeft cue passes := by
  have hstarts := h.startsLeft_le hs
  unfold Place.returnsLeft
  cases hopens : visit.opens cue with
  | false =>
      rw [hopens] at hstarts
      have hpasses := h.passesLeft_le hopens
      have hmul := Nat.mul_le_mul_left (passes - 1) hstarts
      rw [Bool.toNat_false, Nat.add_zero] at hmul
      omega
  | true =>
      rw [hopens] at hstarts
      have hpasses : next.passesLeft passes ≤ passes - 1 := (h.sound hs).passesLeft_le
      have hmul := Nat.mul_le_mul_left (passes - 1) hstarts
      rw [Bool.toNat_true, Nat.mul_succ] at hmul
      rw [h.returns_of_opens hopens, Bool.toNat_false]
      omega

theorem countP_cons_eq (p : α → Bool) (a : α) (l : List α) :
    (a :: l).countP p = l.countP p + (p a).toNat := by
  rw [List.countP_cons]
  cases p a <;> rfl

/-- A walk goes back no more often than its measure says. -/
theorem Walked.returnsLeft_le {place last : Place α} {visits : List (Visit α)}
    (h : Walked cue passes place visits last) (hs : place.Sound) :
    last.returnsLeft cue passes + visits.countP Visit.returns
      ≤ place.returnsLeft cue passes := by
  induction h with
  | here place => exact Nat.le_refl _
  | @on place next last visit later hstep _ ih =>
      have hstepped := stepped_of_step hstep
      have hrest := ih (hstepped.sound hs)
      have hone := hstepped.returnsLeft_le hs
      rw [countP_cons_eq]
      omega

/-- Between two starts that take effect a walk goes back at most `passes - 1` times. -/
theorem Walked.passesLeft_le {place last : Place α} {visits : List (Visit α)}
    (h : Walked cue passes place visits last) (hs : place.Sound)
    (hopens : ∀ visit ∈ visits, visit.opens cue = false) :
    last.passesLeft passes + visits.countP Visit.returns ≤ place.passesLeft passes := by
  induction h with
  | here place => exact Nat.le_refl _
  | @on place next last visit later hstep _ ih =>
      have hstepped := stepped_of_step hstep
      have hrest := ih (hstepped.sound hs) fun v hmem => hopens v (List.mem_cons_of_mem _ hmem)
      have hone := hstepped.passesLeft_le (hopens visit List.mem_cons_self)
      rw [countP_cons_eq]
      omega

/-- The starts that take effect do so in the order of the score, and once. -/
theorem Walked.opened_sublist {place last : Place α} {visits : List (Visit α)}
    (h : Walked cue passes place visits last) (hs : place.Sound) :
    ((visits.filter (Visit.opens cue)).map (·.node)).Sublist place.remaining := by
  induction h with
  | here place => exact List.nil_sublist _
  | @on place next last visit later hstep _ ih =>
      have hstepped := stepped_of_step hstep
      have hrest := ih (hstepped.sound hs)
      cases hopens : visit.opens cue with
      | false =>
          rw [List.filter_cons_of_neg (by simp [hopens])]
          exact hrest.trans (hstepped.remaining_suffix hs).sublist
      | true =>
          rw [List.filter_cons_of_pos hopens, List.map_cons]
          exact (hrest.cons_cons _).trans (hstepped.opens_suffix hs hopens).sublist

/-! ### Doing without the limit -/

/-- A limit that allows all returns that the walk can still make. -/
def Place.Covered (cue : α → Cue) (passes : Nat) (place : Place α) : Prop :=
  ∀ limit, place.returns = some limit → place.returnsLeft cue passes ≤ limit

/-- The same place without a limit. -/
def Place.unlimited (place : Place α) : Place α := { place with returns := none }

/-- Where the walk wants to go back it may. -/
theorem Place.Covered.returns_ne_zero {place : Place α} (h : place.Covered cue passes)
    (hstart : place.memory.start ≠ none) (hpass : place.memory.pass < passes) :
    place.returns ≠ some 0 := by
  intro hzero
  have hle := h 0 hzero
  unfold Place.returnsLeft Place.passesLeft at hle
  rw [if_neg hstart] at hle
  omega

theorem Stepped.covered {place next : Place α} {visit : Visit α}
    (h : Stepped cue passes place visit next) (hs : place.Sound)
    (hc : place.Covered cue passes) : next.Covered cue passes := by
  have hle := h.returnsLeft_le hs
  intro limit hlimit
  cases h with
  | returned hcue hstart hpass hreturns =>
      -- limit and measure fall together
      obtain ⟨limit', hlimit', rfl⟩ := Option.map_eq_some_iff.1 hlimit
      have hbound := hc limit' hlimit'
      simp only [Visit.returns, BEq.rfl, Bool.toNat_true] at hle
      omega
  | _ => exact Nat.le_trans (Nat.le_trans (Nat.le_add_right ..) hle) (hc limit hlimit)

theorem Stepped.unlimited {place next : Place α} {visit : Visit α}
    (h : Stepped cue passes place visit next) (hc : place.Covered cue passes) :
    Stepped cue passes place.unlimited visit next.unlimited := by
  cases h with
  | skipped hcue hsilent => exact .skipped hcue hsilent
  | opened hcue hsilent => exact .opened hcue hsilent
  | ending hcue hsilent => exact .ending hcue hsilent
  | played hcue hsilent => exact .played hcue hsilent
  | stray hcue hstart => exact .stray hcue hstart
  | returned hcue hstart hpass => exact .returned hcue hstart hpass (by simp)
  | closed hcue hstart hdone =>
      refine .closed hcue hstart fun hpass => ?_
      exact absurd (hdone hpass) (hc.returns_ne_zero (by simp [hstart]) hpass)

theorem Walked.unlimited {place last : Place α} {visits : List (Visit α)}
    (h : Walked cue passes place visits last) (hs : place.Sound)
    (hc : place.Covered cue passes) :
    Walked cue passes place.unlimited visits last.unlimited := by
  induction h with
  | here place => exact .here _
  | on hstep _ ih =>
      have hstepped := stepped_of_step hstep
      exact .on (step_of_stepped (hstepped.unlimited hc))
        (ih (hstepped.sound hs) (hstepped.covered hs hc))

theorem Walked.covered {place last : Place α} {visits : List (Visit α)}
    (h : Walked cue passes place visits last) (hs : place.Sound)
    (hc : place.Covered cue passes) : last.Covered cue passes := by
  induction h with
  | here place => exact hc
  | on hstep _ ih =>
      have hstepped := stepped_of_step hstep
      exact ih (hstepped.sound hs) (hstepped.covered hs hc)

/-- The outcome is the same with and without a limit. -/
theorem Carried.unlimited {follow : σ → Visit α → Except ε σ} {place : Place α} {state : σ}
    {outcome : Except ε σ} (h : Carried cue passes follow place state outcome) (hs : place.Sound)
    (hc : place.Covered cue passes) : Carried cue passes follow place.unlimited state outcome := by
  induction h with
  | @finished place state hstep =>
      have hahead : place.ahead = [] := step_eq_none_iff.1 hstep
      exact .finished (step_eq_none_iff.2 hahead)
  | refused hstep hno =>
      exact .refused (step_of_stepped ((stepped_of_step hstep).unlimited hc)) hno
  | on hstep hyes _ ih =>
      have hstepped := stepped_of_step hstep
      exact .on (step_of_stepped (hstepped.unlimited hc)) hyes
        (ih (hstepped.sound hs) (hstepped.covered hs hc))

/-! ### What is allowed is enough -/

/-- As many returns as are allowed cover a walk from the beginning. -/
theorem covered_returnsAllowed (cue : α → Cue) {nodes : List α}
    (hlength : nodes.length < UInt32.size) (hpasses : passes < UInt32.size) :
    Place.Covered cue passes ⟨nodes, {}, some (returnsAllowed passes nodes)⟩ := by
  intro limit hlimit
  have hstarts : nodes.countP (fun node => cue node == .repeatStart) ≤ nodes.length :=
    List.countP_le_length
  have hproduct : (passes - 1) * nodes.countP (fun node => cue node == .repeatStart)
      ≤ nodes.length * passes := by
    rw [Nat.mul_comm nodes.length]
    exact Nat.mul_le_mul (Nat.sub_le passes 1) hstarts
  have hword : nodes.length * passes ≤ (UInt32.size - 1) * (UInt32.size - 1) :=
    Nat.mul_le_mul (Nat.le_pred_of_lt hlength) (Nat.le_pred_of_lt hpasses)
  have hsize : (UInt32.size - 1) * (UInt32.size - 1) ≤ UInt64.size - 1 := by decide
  show 0 + (passes - 1) * nodes.countP (fun node => cue node == .repeatStart) ≤ limit
  cases hlimit
  rw [Nat.zero_add]
  exact Nat.le_min.2 ⟨hproduct, Nat.le_trans hproduct (Nat.le_trans hword hsize)⟩

/-- A walk through numbered nodes that no limit on returns keeps from anything. -/
structure Place.Unhindered (cue : α → Cue) (passes : Nat) (start : Place (α × Nat)) : Prop where
  ends : ∃ visits last, Walked (fun node => cue node.1) passes start visits last ∧ last.ahead = []
  /-- No section starts twice at one node. -/
  opens_once : ∀ {visits last}, Walked (fun node => cue node.1) passes start visits last →
    ((visits.filter (Visit.opens fun node => cue node.1)).map (·.node.2)).Nodup
  /-- Between two starts of sections the walk goes back once less than a section is played. -/
  returns_le : ∀ {before between after last},
    Walked (fun node => cue node.1) passes start (before ++ between ++ after) last →
    (∀ visit ∈ between, visit.opens (fun node => cue node.1) = false) →
    between.countP Visit.returns ≤ passes - 1
  /-- At the end of a section that is to be played again the walk may go back. -/
  may_return : ∀ {visits last node rest},
    Walked (fun node => cue node.1) passes start visits last → last.ahead = node :: rest →
    cue node.1 = .repeatStop → last.memory.start ≠ none → last.memory.pass < passes →
    last.returns ≠ some 0

theorem unhindered_of_covered {nodes : List α} {returns : Option Nat}
    (hends : ∃ visits last, Walked (fun node : α × Nat => cue node.1) passes
      ⟨nodes.zipIdx, {}, returns⟩ visits last ∧ last.ahead = [])
    (hc : Place.Covered (fun node => cue node.1) passes ⟨nodes.zipIdx, {}, returns⟩) :
    Place.Unhindered cue passes ⟨nodes.zipIdx, {}, returns⟩ := by
  have hs : Place.Sound ⟨nodes.zipIdx, {}, returns⟩ := sound_start _ _
  refine ⟨hends, ?_, ?_, ?_⟩
  · intro visits last h
    have hsublist := (h.opened_sublist hs).map Prod.snd
    rw [List.map_map] at hsublist
    refine hsublist.nodup ?_
    show (nodes.zipIdx.map Prod.snd).Nodup
    rw [List.zipIdx_map_snd]
    exact List.nodup_range' ..
  · intro before between after last h hopens
    obtain ⟨late, hbetween, -⟩ := walked_append h
    obtain ⟨early, hbefore, hmid⟩ := walked_append hbetween
    have hearly := hbefore.sound hs
    have hle := hmid.passesLeft_le hearly hopens
    have hfirst : early.passesLeft passes ≤ passes - 1 := hearly.passesLeft_le
    omega
  · intro visits last node rest h hahead hcue hstart hpass
    exact (h.covered hs hc).returns_ne_zero hstart hpass

/-! ### Performing without a limit -/

namespace Score

/-- The result of performing a score with a limit on returns, or without one. -/
def Performed (returns : Option Nat) (settings : Settings) (score : Score)
    (result : Except Fault Performance) : Prop :=
  match score.refusal? settings with
  | some fault => result = .error fault
  | none => ∃ outcome,
    Carried (fun node : Node × Nat => node.1.cue) settings.passes.toNat
      (fun p visit => settings.follow p (visit.map Prod.fst)) ⟨score.zipIdx, {}, returns⟩
      settings.player outcome ∧ result = outcome.map Player.finish

variable {settings : Settings} {score : Score}

theorem covered_zipIdx (h : score.length < UInt32.size) :
    Place.Covered (fun node : Node × Nat => node.1.cue) settings.passes.toNat
      ⟨score.zipIdx, {}, some (returnsAllowed settings.passes.toNat score)⟩ := by
  have hlength : score.zipIdx.length < UInt32.size := by rwa [List.length_zipIdx]
  have hcovered := covered_returnsAllowed (fun node : Node × Nat => node.1.cue) hlength
    settings.passes.toNat_lt_size
  rwa [returnsAllowed, List.length_zipIdx] at hcovered

theorem map_zipIdx (returns : Option Nat) :
    Place.map Prod.fst ⟨score.zipIdx, {}, returns⟩ = ⟨score, {}, returns⟩ := by
  rw [Place.map, List.zipIdx_map_fst]
  rfl

/-- A limit that covers the walk makes no difference to the result. -/
theorem performed_unlimited_iff (h : score.length < UInt32.size)
    {result : Except Fault Performance} :
    score.Performed none settings result ↔ score.perform settings = result := by
  unfold Performed perform
  cases score.refusal? settings with
  | some fault => exact eq_comm
  | none =>
      obtain ⟨outcome, hlimited⟩ : ∃ outcome, Carried (fun node : Node × Nat => node.1.cue)
          settings.passes.toNat (fun p visit => settings.follow p (visit.map Prod.fst))
          ⟨score.zipIdx, {}, some (returnsAllowed settings.passes.toNat score)⟩
          settings.player outcome := ⟨_, carried_iff_walk.2 rfl⟩
      -- the limited walk through the numbered nodes has the outcome of both
      have hfree := hlimited.unlimited (sound_start _ _) (covered_zipIdx h)
      have hplain := hlimited.map Prod.fst
      rw [map_zipIdx] at hplain
      simp only [carried_iff_walk.1 hplain]
      constructor
      · rintro ⟨outcome', houtcome', rfl⟩
        rw [hfree.unique houtcome']
      · rintro rfl
        exact ⟨outcome, hfree, rfl⟩

/-- **The limit on returns keeps no walk from anything, and no performance from its result.** -/
theorem returns_never_run_out (settings : Settings) (h : score.length < UInt32.size) :
    (∀ returns, returns = none ∨ returns = some (returnsAllowed settings.passes.toNat score) →
      Place.Unhindered Node.cue settings.passes.toNat ⟨score.zipIdx, {}, returns⟩) ∧
    ∀ result, score.Performed none settings result ↔ score.perform settings = result := by
  refine ⟨?_, fun result => performed_unlimited_iff h⟩
  obtain ⟨last, hend, hwalked⟩ := walked_visits (fun node : Node × Nat => node.1.cue)
    settings.passes.toNat (returnsAllowed settings.passes.toNat score) score.zipIdx {}
  rintro returns (rfl | rfl)
  · have hfree := hwalked.unlimited (sound_start _ _) (covered_zipIdx h)
    refine unhindered_of_covered ⟨_, _, hfree, hend⟩ ?_
    intro limit hlimit
    exact absurd hlimit (by simp)
  · exact unhindered_of_covered ⟨_, _, hwalked, hend⟩ (covered_zipIdx h)

/-- A section inside another, whose end is shared by both. -/
def nested : Score := ofText "||: 1 ||: 2 :|| 3 :||".toList

theorem returns_never_run_out_nested :
    nested.length < UInt32.size ∧
      Place.Unhindered Node.cue 2 ⟨nested.zipIdx, {}, none⟩ ∧
      ∀ result, nested.Performed none {} result ↔ nested.perform {} = result := by
  have h : nested.length < UInt32.size := by decide +kernel
  obtain ⟨hwalk, hresult⟩ := returns_never_run_out {} h
  exact ⟨h, hwalk none (.inl rfl), hresult⟩

end Score

end NumberedScore
