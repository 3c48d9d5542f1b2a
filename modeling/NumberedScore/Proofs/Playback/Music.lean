/-
What is heard of a walk.

Of the nodes that take effect, those without a cue are the music; all others only say which
node is next, and playing them changes nothing.  So two scores of the same music are
performed alike, and in particular a score is performed like its music written down straight
(`perform_music`).

`Hears` relates two places of a walk by the music between them.  Walks through the parts of
a score compose (`Hears.trans`), which leaves three things to say about a part: music is
heard as it stands (`hears_music`), an ending of another pass is not heard at all
(`hears_otherPass`), and what a repeat sign or the mark of an ending does is a single step
(`Stepped.hears_nil`).  The music of a score is what is heard from its beginning to its end
(`music_eq_of_hears`).
-/
import NumberedScore.Proofs.Playback.Straight

namespace NumberedScore

variable {α : Type} {cue : α → Cue} {passes : Nat}

/-- The nodes that take effect and have no cue. -/
def music (cue : α → Cue) (visits : List (Visit α)) : List α :=
  ((visits.filter (·.fate ≠ .skipped)).map (·.node)).filter (cue · = .other)

theorem music_append (cue : α → Cue) (before after : List (Visit α)) :
    music cue (before ++ after) = music cue before ++ music cue after := by
  simp only [music, List.filter_append, List.map_append]

/-- The walk leads from one place to another, and this is the music on the way. -/
def Hears (cue : α → Cue) (passes : Nat) (place : Place α) (heard : List α)
    (next : Place α) : Prop :=
  ∃ visits, Walked cue passes place visits next ∧ music cue visits = heard

theorem Hears.refl (place : Place α) : Hears cue passes place [] place :=
  ⟨[], .here place, rfl⟩

theorem Hears.trans {place mid next : Place α} {before after : List α}
    (h : Hears cue passes place before mid) (h' : Hears cue passes mid after next) :
    Hears cue passes place (before ++ after) next := by
  obtain ⟨visits, hwalked, rfl⟩ := h
  obtain ⟨visits', hwalked', rfl⟩ := h'
  exact ⟨visits ++ visits', hwalked.append hwalked', music_append cue visits visits'⟩

theorem Stepped.hears {place next : Place α} {visit : Visit α}
    (h : Stepped cue passes place visit next) :
    Hears cue passes place (music cue [visit]) next :=
  ⟨[visit], .on (step_of_stepped h) (.here next), rfl⟩

/-- A node with a cue is not heard. -/
theorem Stepped.hears_nil {place next : Place α} {visit : Visit α}
    (h : Stepped cue passes place visit next) (hcue : cue visit.node ≠ .other) :
    Hears cue passes place [] next := by
  have hnone : music cue [visit] = [] := by
    refine List.filter_eq_nil_iff.2 fun node hmem => ?_
    obtain ⟨met, hmet, rfl⟩ := List.mem_map.1 hmem
    rw [List.mem_singleton.1 (List.mem_filter.1 hmet).1]
    simpa using hcue
  exact hnone ▸ h.hears

/-- Music is heard as it stands. -/
theorem hears_music {nodes : List α} (h : ∀ node ∈ nodes, cue node = .other)
    {s : Section α} (hsilent : s.silent = false) (rest : List α) (returns : Option Nat) :
    Hears cue passes ⟨nodes ++ rest, s, returns⟩ nodes ⟨rest, s, returns⟩ := by
  induction nodes with
  | nil => exact .refl _
  | cons node later ih =>
      obtain ⟨hnode, hlater⟩ := List.forall_mem_cons.1 h
      have hone : music cue [⟨node, s.pass, .played⟩] = [node] := by simp [music, hnode]
      have hstep : Hears cue passes ⟨node :: (later ++ rest), s, returns⟩ [node]
          ⟨later ++ rest, s, returns⟩ := hone ▸ (Stepped.played hnode hsilent).hears
      exact hstep.trans (ih hlater)

/-- What belongs to another pass is not heard. -/
theorem hears_silence {nodes : List α} (h : ∀ node ∈ nodes, cue node ≠ .repeatStop)
    {s : Section α} (hsilent : s.silent = true) (rest : List α) (returns : Option Nat) :
    Hears cue passes ⟨nodes ++ rest, s, returns⟩ [] ⟨rest, s, returns⟩ := by
  induction nodes with
  | nil => exact .refl _
  | cons node later ih =>
      obtain ⟨hnode, hlater⟩ := List.forall_mem_cons.1 h
      have hstep : Hears cue passes ⟨node :: (later ++ rest), s, returns⟩ []
          ⟨later ++ rest, s, returns⟩ := (Stepped.skipped hnode hsilent).hears
      exact hstep.trans (ih hlater)

/-- The mark of an ending says what is heard behind it, but is not heard. -/
theorem hears_mark {mark : α} {pass : Nat} (h : cue mark = .ending pass) {s : Section α}
    (hsilent : s.silent = false) (rest : List α) (returns : Option Nat) :
    Hears cue passes ⟨mark :: rest, s, returns⟩ []
      ⟨rest, { s with ending := some pass }, returns⟩ :=
  (Stepped.ending h hsilent).hears_nil (by simp [h])

/-- An ending of another pass is not heard. -/
theorem hears_otherPass {mark : α} {pass : Nat} (h : cue mark = .ending pass) {nodes : List α}
    (hnodes : ∀ node ∈ nodes, cue node ≠ .repeatStop) {s : Section α} (hsilent : s.silent = false)
    (hpass : pass ≠ s.pass) (rest : List α) (returns : Option Nat) :
    Hears cue passes ⟨mark :: (nodes ++ rest), s, returns⟩ []
      ⟨rest, { s with ending := some pass }, returns⟩ := by
  have hother : Section.silent { s with ending := some pass } = true := by
    simpa [Section.silent] using hpass
  exact (hears_mark h hsilent _ returns).trans (hears_silence hnodes hother rest returns)

/-- There is nothing to return to and nothing to pass over. -/
structure Section.Idle (s : Section α) : Prop where
  start : s.start = none
  silent : s.silent = false

/-! ### The music of a score -/

namespace Score

variable {settings : Settings} {score : Score}

/-- The nodes of a score that are heard, in the order in which they are. -/
def music (settings : Settings) (score : Score) : Score :=
  NumberedScore.music Node.cue (score.visits settings)

/-- The music of a score is what is heard from its beginning to its end. -/
theorem music_eq_of_hears {heard : Score} {last : Place Node}
    (h : Hears Node.cue settings.passes.toNat
      ⟨score, {}, some (returnsAllowed settings.passes.toNat score)⟩ heard last)
    (hend : last.ahead = []) : score.music settings = heard := by
  obtain ⟨visits, hwalked, rfl⟩ := h
  obtain ⟨last', hend', hall⟩ := walked_visits Node.cue settings.passes.toNat
    (returnsAllowed settings.passes.toNat score) score {}
  obtain ⟨hvisits, -⟩ := hall.unique hend' hwalked hend
  exact congrArg (NumberedScore.music Node.cue) hvisits

/-- So it is for a walk without a limit, which a score of 32-bit length does not need. -/
theorem music_eq_of_hears_unlimited {heard : Score} {last : Place Node}
    (hlength : score.length < UInt32.size)
    (h : Hears Node.cue settings.passes.toNat ⟨score, {}, none⟩ heard last)
    (hend : last.ahead = []) : score.music settings = heard := by
  obtain ⟨visits, hwalked, rfl⟩ := h
  obtain ⟨last', hall, hend'⟩ := walked_score_visits settings hlength
  obtain ⟨hvisits, -⟩ := hall.unique hend' hwalked hend
  exact congrArg (NumberedScore.music Node.cue) hvisits

theorem cue_of_mem_music {node : Node} (h : node ∈ score.music settings) : node.cue = .other := by
  simpa using (List.mem_filter.1 h).2

/-- Only nodes that direct the walk are left out of what is played. -/
theorem undirected_music (settings : Settings) (score : Score) :
    undirected (score.music settings) = undirected (score.played settings) := by
  show List.filter _ (List.filter _ (score.played settings)) = _
  rw [List.filter_filter]
  refine List.filter_congr fun node _ => ?_
  cases hdirects : node.mark.directs with
  | true => rfl
  | false => exact decide_eq_true (cue_of_not_directs hdirects)

/-- Settings that are refused are refused for every score. -/
theorem perform_of_settings_fault {reason : SettingsFault} (h : settings.fault? = some reason)
    (score : Score) : score.perform settings = .error (.settings reason) := by
  simp [perform, refusal?, h]

/-- **A score is performed like its music.** -/
theorem perform_music (settings : Settings) (hfault : score.fault? = none) :
    score.perform settings = (score.music settings).perform settings := by
  cases hsettings : settings.fault? with
  | some reason => simp only [perform_of_settings_fault hsettings]
  | none =>
      have hmusic : fault? (score.music settings) = none := by
        refine score_fault?_eq_none_iff.2 fun node hmem => ?_
        have hscore : node ∈ score := mem_of_mem_played (List.mem_filter.1 hmem).1
        exact score_fault?_eq_none_iff.1 hfault node hscore
      calc score.perform settings
          = straight settings (undirected (score.played settings)) := by
            rw [perform_eq_straight (refusal?_eq_none_iff.2 ⟨hsettings, hfault⟩),
              straight_undirected]
        _ = straight settings (score.music settings) := by
            rw [← undirected_music, ← straight_undirected]
        _ = straight settings (played settings (score.music settings)) := by
            rw [played_of_other fun node hmem => cue_of_mem_music hmem]
        _ = (score.music settings).perform settings :=
            (perform_eq_straight (refusal?_eq_none_iff.2 ⟨hsettings, hmusic⟩)).symm

end Score

end NumberedScore
