/-
Nodes that can be left out.

A plain bar line or an unknown token neither directs the walk nor changes the player.
`Score.thinned` is a score without some of these.  All that a walk remembers of a score, the
nodes ahead and those behind the start of the section, is thinned with it.  Then a step at a
node that is kept is the same step, while one at a node that is left out is no step at all.
So the visits of the thinned score are those of the whole that meet a node it keeps
(`Walked.filter`), and the rest of them the player does not notice: the numbers that are
checked after such a node were in range before it.
-/
import NumberedScore.Proofs.Playback.Straight

namespace NumberedScore

variable {α : Type} {cue : α → Cue} {passes : Nat}

/-! ### The same walk in a thinner score -/

/-- A node that means nothing to the walk is not missed. -/
theorem Stepped.along_filter_eq {keep : α → Bool} {place next : Place α} {visit : Visit α}
    (h : Stepped cue passes place visit next) (hgone : keep visit.node = false)
    (hcue : cue visit.node = .other) :
    next.along (List.filter keep) = place.along (List.filter keep) := by
  cases h with
  | skipped | played =>
      rw [Place.along, Place.along, List.filter_cons_of_neg (by simp [hgone])]
  | opened hother | ending hother | stray hother | returned hother | closed hother =>
      exact absurd (hother.symm.trans hcue) (by simp)

/-- A walk through some of the nodes meets them as the walk through all does. -/
theorem Walked.filter {keep : α → Bool} {place last : Place α} {visits : List (Visit α)}
    (h : Walked cue passes place visits last)
    (hcue : ∀ node, keep node = false → cue node = .other) :
    Walked cue passes (place.along (List.filter keep))
      (visits.filter fun visit => keep visit.node) (last.along (List.filter keep)) := by
  induction h with
  | here place => exact .here _
  | @on place next last visit later hstep _ ih =>
      have hstepped := stepped_of_step hstep
      cases hkeep : keep visit.node with
      | true =>
          have hmet : Stepped cue passes (place.along (List.filter keep)) visit
              (next.along (List.filter keep)) :=
            hstepped.along _ rfl fun rest => List.filter_cons_of_pos hkeep
          rw [List.filter_cons_of_pos (by simpa using hkeep)]
          exact .on (step_of_stepped hmet) ih
      | false =>
          rw [List.filter_cons_of_neg (by simp [hkeep]),
            ← hstepped.along_filter_eq hkeep (hcue visit.node hkeep)]
          exact ih

/-- Some nodes of a score are visited as they are in the whole of it. -/
theorem visits_map_filter {settings : Settings} (node : α → Node) {keep : α → Bool}
    (hcue : ∀ a, keep a = false → (node a).cue = .other) {nodes : List α}
    (hlength : nodes.length < UInt32.size) {visits : List (Visit α)} {last : Place α}
    (h : Walked (fun a => (node a).cue) settings.passes.toNat ⟨nodes, {}, none⟩ visits last)
    (hend : last.ahead = []) :
    Score.visits settings ((nodes.filter keep).map node)
      = (visits.filter fun visit => keep visit.node).map (Visit.map node) := by
  have hthin := (h.filter hcue).map node
  have hshort : ((nodes.filter keep).map node).length < UInt32.size := by
    rw [List.length_map]
    exact Nat.lt_of_le_of_lt (List.length_filter_le ..) hlength
  obtain ⟨last', hwalked, hend'⟩ := Score.walked_score_visits settings hshort
  have hahead : ((last.along (List.filter keep)).map node).ahead = [] := by
    simp [Place.map, Place.along, hend]
  exact (hwalked.unique hend' hthin hahead).1

/-- Nodes that mean nothing to the walk can be left out before it or after it. -/
theorem Score.played_filter (settings : Settings) {score : Score}
    (h : score.length < UInt32.size) {keep : Node → Bool}
    (hcue : ∀ node, keep node = false → node.cue = .other) :
    Score.played settings (score.filter keep) = (score.played settings).filter keep := by
  obtain ⟨last, hwalked, hend⟩ := walked_score_visits settings h
  have hvisits := visits_map_filter id hcue h hwalked hend
  rw [List.map_id] at hvisits
  rw [played, hvisits, played]
  simp only [List.filter_map, List.map_map, List.filter_filter, Function.comp_def, Visit.map,
    Bool.and_comm, id]
  rfl

/-! ### Inert nodes -/

/-- Whether a mark means nothing to the walk and to the player: a plain bar line, or a token
that no rule accepts. -/
def Mark.isInert : Mark → Bool
  | bar _ .none | unknown _ => true
  | _ => false

theorem cue_of_isInert {mark : Mark} (h : mark.isInert = true) : mark.cue = .other := by
  cases mark with
  | bar final turn =>
      cases turn with
      | none => rfl
      | start | stop => exact Bool.noConfusion h
  | unknown => rfl
  | _ => exact Bool.noConfusion h

theorem play_of_isInert {mark : Mark} (h : mark.isInert = true) (tuning : Tuning) (p : Player) :
    p.play tuning mark = p := by
  cases mark with
  | bar | unknown => rfl
  | _ => exact Bool.noConfusion h

theorem fault?_of_isInert {node : Node} (h : node.mark.isInert = true) : node.fault? = none := by
  unfold Node.fault?
  cases hmark : node.mark with
  | tempo | time =>
      rw [hmark] at h
      exact Bool.noConfusion h
  | _ => rfl

namespace Score

variable {settings : Settings} {score : Score}

/-- Whether a numbered node stays when the inert ones with these numbers are left out. -/
def keeps (gone : Nat → Bool) (node : Node × Nat) : Bool := !(node.1.mark.isInert && gone node.2)

/-- A score without those of its inert nodes that have these numbers, counted from zero. -/
def thinned (gone : Nat → Bool) (score : Score) : Score :=
  (score.zipIdx.filter (keeps gone)).map Prod.fst

theorem isInert_of_not_keeps {gone : Nat → Bool} {node : Node × Nat}
    (h : keeps gone node = false) : node.1.mark.isInert = true := by
  simp only [keeps, Bool.not_eq_eq_eq_not, Bool.not_false, Bool.and_eq_true] at h
  exact h.1

theorem fault?_thinned (gone : Nat → Bool) (score : Score) :
    (score.thinned gone).fault? = score.fault? := by
  have hfine : ∀ node : Node × Nat, keeps gone node = false → node.1.fault? = none :=
    fun node hgone => fault?_of_isInert (isInert_of_not_keeps hgone)
  rw [thinned, fault?_map_filter Prod.fst hfine, List.zipIdx_map_fst]

/-- A thinned score is visited like the whole, but for what is left out of it. -/
theorem visits_thinned (settings : Settings) (h : score.length < UInt32.size)
    (gone : Nat → Bool) :
    (score.thinned gone).visits settings
      = ((score.numberedVisits settings).filter fun visit => keeps gone visit.node).map
        (Visit.map Prod.fst) := by
  obtain ⟨last, hend, hnumbered⟩ := walked_numberedVisits settings score
  have hcue : ∀ node : Node × Nat, keeps gone node = false → node.1.cue = .other :=
    fun node hgone => cue_of_isInert (isInert_of_not_keeps hgone)
  have hlength : score.zipIdx.length < UInt32.size := by rwa [List.length_zipIdx]
  have hunlimited := hnumbered.unlimited (sound_start _ _) (covered_zipIdx h)
  exact visits_map_filter Prod.fst hcue hlength hunlimited hend

theorem played_thinned (settings : Settings) (h : score.length < UInt32.size) (gone : Nat → Bool) :
    (score.thinned gone).played settings
      = ((score.numberedPlayed settings).filter (keeps gone)).map Prod.fst := by
  rw [played, visits_thinned settings h, numberedPlayed]
  simp only [List.filter_map, List.map_map, List.filter_filter, Function.comp_def, Visit.map,
    Bool.and_comm]
  rfl

/-- **Inert nodes can be left out anywhere.** -/
theorem perform_thinned (settings : Settings) (h : score.length < UInt32.size)
    (gone : Nat → Bool) : (score.thinned gone).perform settings = score.perform settings := by
  have hrefusal : (score.thinned gone).refusal? settings = score.refusal? settings := by
    simp only [refusal?, fault?_thinned]
  cases hreason : score.refusal? settings with
  | some fault => rw [perform_of_refusal hreason, perform_of_refusal (hrefusal.trans hreason)]
  | none =>
      have hstill : ∀ node : Node × Nat, keeps gone node = false →
          ∀ p : Player, p.play settings.tuning node.1.mark = p := by
        intro node hgone p
        exact play_of_isInert (isInert_of_not_keeps hgone) settings.tuning p
      calc (score.thinned gone).perform settings
          = straight settings ((score.thinned gone).played settings) :=
            perform_eq_straight (hrefusal.trans hreason)
        _ = straight settings (((score.numberedPlayed settings).filter (keeps gone)).map
              Prod.fst) := by rw [played_thinned settings h]
        _ = straight settings ((score.numberedPlayed settings).map Prod.fst) := by
            rw [straight, straight, ← foldlM_playNode_filter settings Prod.fst hstill _
              (inRange_player settings)]
        _ = straight settings (score.played settings) := by rw [map_numberedPlayed]
        _ = score.perform settings := (perform_eq_straight hreason).symm

/-- Inert nodes behind a start, in a section, and in an ending that is passed over. -/
def cluttered : Score := ofText "||: | ?x 1 [2. || 2 @ :|| | 3 ..".toList

theorem perform_thinned_cluttered :
    cluttered.length < UInt32.size ∧
      (cluttered.thinned (· ≠ 5)).map (·.raw)
        = ["||:".toList, ['1'], "[2.".toList, "||".toList, ['2'], ":||".toList, ['3']] ∧
      (cluttered.thinned (· ≠ 5)).perform {} = cluttered.perform {} := by
  have h : cluttered.length < UInt32.size := by decide +kernel
  exact ⟨h, by decide +kernel, perform_thinned {} h (· ≠ 5)⟩

end Score

end NumberedScore
