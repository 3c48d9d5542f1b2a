/-
Where an ending ends.

An ending of another pass silences the walk, and only a repeat sign is met all the same.  One
that ends a section also ends the ending, whether the walk goes back from it or on
(`Stepped.ending_eq_none`), so behind it nothing is passed over until another ending starts.
One that ends nothing changes nothing, an ending in force included.  Hence a silence that
falls outside of any section is never broken again: neither a repeat sign nor the start of a
section further on is heard (`Walked.of_stuck`).

This decides what a score without starts sounds like (`perform_without_starts`).  There is
no section in it, so the only pass is the first and every repeat sign is stray.  Endings of
the first pass make no difference, and an ending of another pass takes what is behind it away.
-/
import NumberedScore.Proofs.Playback.Music

namespace NumberedScore

variable {α : Type} {cue : α → Cue} {passes : Nat}

/-! ### Repeat signs and the ending in force -/

/-- A repeat sign that ends a section ends the ending. -/
theorem Stepped.ending_eq_none {place next : Place α} {visit : Visit α}
    (h : Stepped cue passes place visit next) (hcue : cue visit.node = .repeatStop)
    (hstart : place.memory.start ≠ none) : next.memory.ending = none := by
  cases h with
  | skipped hne => exact absurd hcue hne
  | opened hother | ending hother | played hother => exact absurd (hother.symm.trans hcue) (by simp)
  | stray _ hnone => exact absurd hnone hstart
  | returned | closed => rfl

/-- A repeat sign that ends no section changes nothing. -/
theorem Stepped.memory_eq_of_stray {place next : Place α} {visit : Visit α}
    (h : Stepped cue passes place visit next) (hcue : cue visit.node = .repeatStop)
    (hstart : place.memory.start = none) : next.memory = place.memory := by
  cases h with
  | skipped hne => exact absurd hcue hne
  | opened hother | ending hother | played hother => exact absurd (hother.symm.trans hcue) (by simp)
  | stray => rfl
  | returned _ hsome | closed _ hsome => exact absurd (hsome.symm.trans hstart) (by simp)

/-- Whether an ending starts at a visit. -/
def Visit.StartsEnding (cue : α → Cue) (visit : Visit α) : Prop :=
  visit.fate = .played ∧ ∃ pass, cue visit.node = .ending pass

/-- An ending comes into force where it starts and nowhere else. -/
theorem Stepped.startsEnding {place next : Place α} {visit : Visit α}
    (h : Stepped cue passes place visit next) (hnone : place.memory.ending = none)
    (hsome : next.memory.ending ≠ none) : visit.StartsEnding cue := by
  cases h with
  | ending hcue => exact ⟨rfl, _, hcue⟩
  | opened | returned | closed => exact absurd rfl hsome
  | skipped | played | stray => exact absurd hnone hsome

theorem Walked.startsEnding {place last : Place α} {visits : List (Visit α)}
    (h : Walked cue passes place visits last) (hnone : place.memory.ending = none)
    (hsome : last.memory.ending ≠ none) : ∃ visit ∈ visits, visit.StartsEnding cue := by
  induction h with
  | here place => exact absurd hnone hsome
  | @on place next last visit later hstep _ ih =>
      by_cases hnext : next.memory.ending = none
      · obtain ⟨found, hmem, hfound⟩ := ih hnext hsome
        exact ⟨found, List.mem_cons_of_mem _ hmem, hfound⟩
      · exact ⟨visit, List.mem_cons_self, (stepped_of_step hstep).startsEnding hnone hnext⟩

theorem Stepped.ending_ne_none_of_skipped {place next : Place α} {visit : Visit α}
    (h : Stepped cue passes place visit next) (hskipped : visit.fate = .skipped) :
    place.memory.ending ≠ none := by
  cases h with
  | @skipped node rest s returns hcue hsilent =>
      intro hnone
      have hending : s.ending = none := hnone
      simp [Section.silent, hending] at hsilent
  | _ => exact Fate.noConfusion hskipped

/-- Where no ending is in force, nothing is passed over before one starts. -/
theorem Walked.startsEnding_of_skipped {place last : Place α} {between later : List (Visit α)}
    {visit : Visit α} (h : Walked cue passes place (between ++ visit :: later) last)
    (hnone : place.memory.ending = none) (hskipped : visit.fate = .skipped) :
    ∃ found ∈ between, found.StartsEnding cue := by
  obtain ⟨mid, hbetween, hrest⟩ := walked_append h
  cases hrest with
  | on hstep _ =>
      exact hbetween.startsEnding hnone
        ((stepped_of_step hstep).ending_ne_none_of_skipped hskipped)

/-! ### Silence outside of a section -/

/-- An ending of another pass is in force, and no section is open. -/
structure Section.Stuck (s : Section α) : Prop where
  start : s.start = none
  silent : s.silent = true

theorem Stepped.of_stuck {place next : Place α} {visit : Visit α}
    (h : Stepped cue passes place visit next) (hs : place.memory.Stuck) :
    (visit.fate = .skipped ∨ visit.fate = .stray) ∧ next.memory = place.memory := by
  obtain ⟨hstart, hsilent⟩ := hs
  cases h with
  | skipped => exact ⟨.inl rfl, rfl⟩
  | stray => exact ⟨.inr rfl, rfl⟩
  | opened _ hheard | ending _ hheard | played _ hheard =>
      exact absurd (hheard.symm.trans hsilent) (by simp)
  | returned _ hsome | closed _ hsome => exact absurd (hsome.symm.trans hstart) (by simp)

/-- Behind such an ending nothing takes effect. -/
theorem Walked.of_stuck {place last : Place α} {visits : List (Visit α)}
    (h : Walked cue passes place visits last) (hs : place.memory.Stuck) :
    ∀ visit ∈ visits, visit.fate = .skipped ∨ visit.fate = .stray := by
  induction h with
  | here place => exact fun visit hmem => absurd hmem List.not_mem_nil
  | on hstep _ ih =>
      obtain ⟨hfate, hmemory⟩ := (stepped_of_step hstep).of_stuck hs
      exact List.forall_mem_cons.2 ⟨hfate, ih (hmemory ▸ hs)⟩

/-- **A repeat sign ends the ending before it if it ends a section, and otherwise nothing.** -/
theorem stop_ends_ending {first last : Place α} {before after : List (Visit α)} {stop : Visit α}
    (h : Walked cue passes first (before ++ stop :: after) last)
    (hcue : cue stop.node = .repeatStop) :
    ∃ place next, Walked cue passes first before place ∧
      place.step cue passes = some (stop, next) ∧ Walked cue passes next after last ∧
      (place.memory.start ≠ none → next.memory.ending = none ∧
        ∀ between visit later, after = between ++ visit :: later → visit.fate = .skipped →
          ∃ found ∈ between, found.StartsEnding cue) ∧
      (place.memory.start = none → next.memory = place.memory ∧
        (place.memory.silent = true →
          ∀ visit ∈ after, visit.fate = .skipped ∨ visit.fate = .stray)) := by
  obtain ⟨place, hbefore, hrest⟩ := walked_append h
  cases hrest with
  | @on _ next _ _ _ hstep hafter =>
      have hstepped := stepped_of_step hstep
      refine ⟨place, next, hbefore, hstep, hafter, fun hstart => ?_, fun hstart => ?_⟩
      · have hnone := hstepped.ending_eq_none hcue hstart
        refine ⟨hnone, ?_⟩
        rintro between visit later rfl hskipped
        exact hafter.startsEnding_of_skipped hnone hskipped
      · have hmemory := hstepped.memory_eq_of_stray hcue hstart
        exact ⟨hmemory, fun hsilent => hafter.of_stuck (hmemory ▸ ⟨hstart, hsilent⟩)⟩

/-- A section whose second pass alone has an ending, met up to where the walk goes back. -/
theorem stop_ends_ending_returned :
    let cues : List Cue := [.repeatStart, .ending 2, .other, .repeatStop]
    let start : Place Cue := ⟨cues, {}, none⟩
    let stop : Visit Cue := ⟨.repeatStop, 1, .returned⟩
    ∃ before after last, Walked id 2 start (before ++ stop :: after) last ∧
      stop.node = .repeatStop ∧
      ∃ place next, Walked id 2 start before place ∧ place.step id 2 = some (stop, next) ∧
        Walked id 2 next after last ∧
        (place.memory.start ≠ none → next.memory.ending = none ∧
          ∀ between visit later, after = between ++ visit :: later → visit.fate = .skipped →
            ∃ found ∈ between, found.StartsEnding id) ∧
        (place.memory.start = none → next.memory = place.memory ∧
          (place.memory.silent = true →
            ∀ visit ∈ after, visit.fate = .skipped ∨ visit.fate = .stray)) := by
  intro cues start stop
  have h : Walked id 2 start ([⟨.repeatStart, 1, .played⟩, ⟨.ending 2, 1, .played⟩,
      ⟨.other, 1, .skipped⟩] ++ stop :: [⟨.ending 2, 2, .played⟩, ⟨.other, 2, .played⟩]) _ :=
    .on rfl (.on rfl (.on rfl (.on rfl (.on rfl (.on rfl (.here _))))))
  exact ⟨_, _, _, h, rfl, stop_ends_ending h rfl⟩

/-- A section played three times, with an ending for every pass. -/
def threeEndings : Score := Score.ofText "||: 1 [1. 2 :|| [2. 3 :|| [3. 4 :|| 5".toList

/-- Behind a section an ending lasts beyond the repeat sign at its end. -/
theorem ending_outlasts_stop :
    (threeEndings.music { passes := 3 }).map (·.raw) = [['1'], ['2'], ['1'], ['1']] ∧
      ¬ ∀ (settings : Settings) (score : Score), settings.fault? = none →
        ∀ pair ∈ (score.visits settings).zip (score.visits settings).tail,
          pair.1.node.cue = .repeatStop → pair.2.fate ≠ .skipped := by
  refine ⟨by decide +kernel, fun h => ?_⟩
  have hvisits := h { passes := 3 } threeEndings (by decide +kernel)
  exact absurd hvisits (by decide +kernel)

/-! ### Scores without starts -/

/-- Without a start all but the signs is heard, while every ending is one of the first pass. -/
theorem hears_first_pass (passes : Nat) {nodes : List α}
    (hstart : ∀ node ∈ nodes, cue node ≠ .repeatStart)
    (hending : ∀ node ∈ nodes, ∀ pass, cue node = .ending pass → pass = 1) {s : Section α}
    (hidle : s.Idle) (hpass : s.pass = 1) (rest : List α) (returns : Option Nat) :
    ∃ s' : Section α, s'.Idle ∧ s'.pass = 1 ∧ Hears cue passes ⟨nodes ++ rest, s, returns⟩
      (nodes.filter (cue · = .other)) ⟨rest, s', returns⟩ := by
  induction nodes generalizing s with
  | nil => exact ⟨s, hidle, hpass, .refl _⟩
  | cons node later ih =>
      obtain ⟨hnode, hlater⟩ := List.forall_mem_cons.1 hstart
      obtain ⟨hfirst, hendings⟩ := List.forall_mem_cons.1 hending
      cases hcue : cue node with
      | repeatStart => exact absurd hcue hnode
      | repeatStop =>
          obtain ⟨s', hidle', hpass', hheard⟩ := ih hlater hendings hidle hpass
          have hstep : Stepped cue passes ⟨node :: (later ++ rest), s, returns⟩
              ⟨node, s.pass, .stray⟩ ⟨later ++ rest, s, returns⟩ := .stray hcue hidle.start
          refine ⟨s', hidle', hpass', ?_⟩
          simpa [hcue] using (hstep.hears_nil (by simp [hcue])).trans hheard
      | ending pass =>
          have hone : pass = 1 := hfirst pass hcue
          have hnext : Section.Idle { s with ending := some pass } :=
            ⟨hidle.start, by simp [Section.silent, hone, hpass]⟩
          obtain ⟨s', hidle', hpass', hheard⟩ := ih hlater hendings hnext hpass
          refine ⟨s', hidle', hpass', ?_⟩
          simpa [hcue] using (hears_mark hcue hidle.silent (later ++ rest) returns).trans hheard
      | other =>
          obtain ⟨s', hidle', hpass', hheard⟩ := ih hlater hendings hidle hpass
          have hmusic : ∀ n ∈ [node], cue n = .other := by simpa using hcue
          refine ⟨s', hidle', hpass', ?_⟩
          simpa [hcue] using (hears_music hmusic hidle.silent (later ++ rest) returns).trans hheard

namespace Score

variable {settings : Settings} {score : Score}

/-- The nodes of a score that have no cue. -/
def withoutCues (score : Score) : Score := score.filter (·.cue = .other)

/-- Signs and endings have no fault. -/
theorem fault?_withoutCues (score : Score) : score.withoutCues.fault? = score.fault? := by
  have hfine : ∀ node : Node, decide (node.cue = .other) = false → node.fault? = none := by
    intro node hcue
    cases hmark : node.mark <;> simp_all [Node.cue, Mark.cue, Node.fault?]
  simpa [withoutCues] using fault?_map_filter id hfine score

/-- A fault is found whether the signs and endings are there or not. -/
theorem perform_withoutCues_of_fault {fault : Fault} (h : score.fault? = some fault) :
    score.perform settings = score.withoutCues.perform settings := by
  have hrefusal : score.withoutCues.refusal? settings = score.refusal? settings := by
    simp only [refusal?, fault?_withoutCues]
  cases hreason : score.refusal? settings with
  | none => exact absurd (refusal?_eq_none_iff.1 hreason).2 (by simp [h])
  | some reason =>
      rw [perform_of_refusal hreason, perform_of_refusal (hrefusal.trans hreason)]

theorem music_of_first_pass (settings : Settings)
    (hstart : ∀ node ∈ score, node.cue ≠ .repeatStart)
    (hending : ∀ node ∈ score, ∀ pass, node.cue = .ending pass → pass = 1) :
    score.music settings = score.withoutCues := by
  obtain ⟨last, -, -, hheard⟩ := hears_first_pass settings.passes.toNat hstart hending
    (s := {}) ⟨rfl, rfl⟩ rfl [] (some (returnsAllowed settings.passes.toNat score))
  rw [List.append_nil] at hheard
  exact music_eq_of_hears hheard rfl

theorem music_of_other_pass (settings : Settings) {before after : Score} {mark : Node} {pass : Nat}
    (hstart : ∀ node ∈ before, node.cue ≠ .repeatStart)
    (hending : ∀ node ∈ before, ∀ pass, node.cue = .ending pass → pass = 1)
    (hmark : mark.cue = .ending pass) (hpass : pass ≠ 1)
    (hstop : ∀ node ∈ after, node.cue ≠ .repeatStop) :
    music settings (before ++ mark :: after) = before.withoutCues := by
  let returns := some (returnsAllowed settings.passes.toNat (before ++ mark :: after))
  obtain ⟨s, hidle, hone, hheard⟩ := hears_first_pass settings.passes.toNat hstart hending
    (s := {}) ⟨rfl, rfl⟩ rfl (mark :: after) returns
  -- the only pass of a piece without starts is the first, so the ending is never its own
  have hother : Hears Node.cue settings.passes.toNat ⟨mark :: (after ++ []), s, returns⟩ []
      ⟨[], { s with ending := some pass }, returns⟩ :=
    hears_otherPass hmark hstop hidle.silent (hone.symm ▸ hpass) [] returns
  rw [List.append_nil] at hother
  have hall := hheard.trans hother
  rw [List.append_nil] at hall
  exact music_eq_of_hears hall rfl

/-- **Without starts, all is heard up to an ending of another pass, and nothing behind it.** -/
theorem perform_without_starts (settings : Settings)
    (hstart : ∀ node ∈ score, node.cue ≠ .repeatStart) :
    ((∀ node ∈ score, ∀ pass, node.cue = .ending pass → pass = 1) →
      score.perform settings = score.withoutCues.perform settings) ∧
    ∀ before mark after pass, score = before ++ mark :: after →
      (∀ node ∈ before, ∀ pass, node.cue = .ending pass → pass = 1) →
      mark.cue = .ending pass → pass ≠ 1 → (∀ node ∈ after, node.cue ≠ .repeatStop) →
      score.fault? = none →
      score.perform settings = (withoutCues before).perform settings := by
  constructor
  · intro hending
    cases hfault : score.fault? with
    | some fault => exact perform_withoutCues_of_fault hfault
    | none => rw [perform_music settings hfault, music_of_first_pass settings hstart hending]
  · rintro before mark after pass rfl hending hmark hpass hstop hfault
    have hbefore : ∀ node ∈ before, node.cue ≠ .repeatStart := fun node hmem =>
      hstart node (List.mem_append_left _ hmem)
    rw [perform_music settings hfault,
      music_of_other_pass settings hbefore hending hmark hpass hstop]

/-- Repeat signs that end nothing, and an ending of the first pass. -/
def startless : Score := ofText "1 :|| [1. 2 :|| 3".toList

/-- The beginning of a second ending. -/
def secondMark : Node := Node.ofToken none ⟨"[2.".toList, 18⟩

theorem perform_without_starts_startless :
    ((∀ node ∈ startless, node.cue ≠ .repeatStart) ∧
      (∀ node ∈ startless, ∀ pass, node.cue = .ending pass → pass = 1) ∧
      secondMark.cue = .ending 2 ∧ fault? (startless ++ secondMark :: startless.take 1) = none) ∧
      startless.perform {} = startless.withoutCues.perform {} ∧
      perform {} (startless ++ secondMark :: startless.take 1)
        = startless.withoutCues.perform {} := by
  have hstart : ∀ node ∈ startless, node.cue ≠ .repeatStart := by decide +kernel
  have hcues : ∀ node ∈ startless, node.cue = .ending 1 ∨ node.cue = .other ∨
      node.cue = .repeatStop := by decide +kernel
  have hending : ∀ node ∈ startless, ∀ pass, node.cue = .ending pass → pass = 1 := by
    intro node hmem pass hpass
    rcases hcues node hmem with h | h | h
    · exact (Cue.ending.inj (h.symm.trans hpass)).symm
    · exact absurd (h.symm.trans hpass) (by simp)
    · exact absurd (h.symm.trans hpass) (by simp)
  have hmark : secondMark.cue = .ending 2 := by decide +kernel
  have hstart' : ∀ node ∈ startless ++ secondMark :: startless.take 1,
      node.cue ≠ .repeatStart := by decide +kernel
  have hstop : ∀ node ∈ startless.take 1, node.cue ≠ .repeatStop := by decide +kernel
  have hfault : fault? (startless ++ secondMark :: startless.take 1) = none := by decide +kernel
  exact ⟨⟨hstart, hending, hmark, hfault⟩, (perform_without_starts {} hstart).1 hending,
    (perform_without_starts {} hstart').2 startless secondMark (startless.take 1) 2 rfl hending
      hmark (by decide) hstop hfault⟩

/-- An ending of the second pass, outside of any section. -/
def secondEnding : Score := ofText "[2. 1".toList

/-- An ending of another pass is not ignored: what is behind it is not heard. -/
theorem secondEnding_not_ignored :
    ¬ ∀ (settings : Settings) (score : Score), settings.fault? = none →
      (∀ node ∈ score, node.cue ≠ .repeatStart) →
      score.perform settings = score.withoutCues.perform settings := by
  intro h
  have hsame := h {} secondEnding (by decide +kernel) (by decide +kernel)
  have hcount : ((secondEnding.perform {}).map (·.events.length)).toOption ≠
      ((secondEnding.withoutCues.perform {}).map (·.events.length)).toOption := by decide +kernel
  exact hcount (by rw [hsame])

end Score

end NumberedScore
