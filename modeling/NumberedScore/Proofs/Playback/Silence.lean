/-
Which notes are silent.

A rest is written as a frequency of zero.  A degree of the scale sounds at the frequency of
its key, and that is zero as well when the key is far enough below concert A.  So silence
means a rest only as long as no key is that low.

Above the range there is no such gap.  A frequency that is infinite is no number that a
performance may hold, so that a score in which such a note is played is not performed, and
the fault is at the note or before it.

The frequencies of a performance are the melody of the marks played, and the key of each note
is read off the signatures before it.  The key meant is the sum as it is, not the word that it
wraps around to, and all that is said here is of keys that fit into the word.
-/
import NumberedScore.Proofs.Mark.Written
import NumberedScore.Proofs.Playback.Independence
import NumberedScore.Proofs.Playback.Strokes
import NumberedScore.Proofs.Score
import NumberedScore.Proofs.Tuning

namespace NumberedScore

variable {settings : Settings} {past : List Mark} {n : Note}

/-! ### Keys -/

/-- The tonic: the last key signature counts, or else the settings do. -/
def Settings.tonicAfter (s : Settings) (past : List Mark) : PianoKey :=
  (past.filterMap Mark.key?).getLast?.getD s.tonic

/-- The key of a note behind some marks as a sum, which a rest does not have. -/
def Settings.keyAfter? (s : Settings) (past : List Mark) (n : Note) : Option PianoKey :=
  degreeKey? (s.tonicAfter past) n.accidental n.degree.toNat n.octave

/-- The frequency of a note behind some marks. -/
def Settings.frequencyAfter (s : Settings) (past : List Mark) (n : Note) : Float :=
  (s.keyAfter? past n).elim 0 s.tuning.frequency

theorem tonicAfter_concat (past : List Mark) (mark : Mark) :
    settings.tonicAfter (past ++ [mark]) = mark.key?.getD (settings.tonicAfter past) := by
  unfold Settings.tonicAfter
  rw [getLast?_filterMap_concat]
  cases mark.key? <;> rfl

/-- Each note of a melody sounds at the frequency of its key. -/
theorem melody_eq_map (marks : List Mark) :
    melody settings.tuning (settings.tonicAfter past) marks
      = ((withPast past marks).filterMap fun (past, mark) => mark.note?.map (past, ·)).map
        fun (past, n) => settings.frequencyAfter past n := by
  induction marks generalizing past with
  | nil => rfl
  | cons mark rest ih =>
      have hrest := @ih (past ++ [mark])
      rw [tonicAfter_concat] at hrest
      cases mark with
      | note n =>
          show _ :: melody _ _ rest = settings.frequencyAfter past n :: List.map _ _
          rw [← hrest, Settings.frequencyAfter, Settings.keyAfter?, ← Tuning.frequency_scaleKey?]
          cases scaleKey? (settings.tonicAfter past) n.accidental n.degree.toNat n.octave <;> rfl
      | _ => exact hrest

/-- A degree of the scale has a key, and a rest has none. -/
theorem keyAfter?_eq_none_iff (hdegree : n.degree.toNat ≤ 7) :
    settings.keyAfter? past n = none ↔ n.degree = 0 := by
  have hzero : n.degree = 0 ↔ n.degree.toNat = 0 := UInt8.toNat_inj.symm
  rw [hzero, Settings.keyAfter?]
  cases hnumber : n.degree.toNat with
  | zero => exact iff_of_true rfl rfl
  | succ d =>
      have hstep : d < majorScale.length := Nat.lt_of_succ_le (hnumber.symm.trans_le hdegree)
      simp [degreeKey?, List.getElem?_eq_getElem hstep]

/-- All keys of the notes played fit into 32 bits. -/
def Score.KeysFit (settings : Settings) (score : Score) : Prop :=
  ∀ note ∈ notesWithPast (marks (score.played settings)),
    ∀ key ∈ settings.keyAfter? note.1 note.2, -2 ^ 31 ≤ key ∧ key < 2 ^ 31

instance (settings : Settings) (score : Score) : Decidable (score.KeysFit settings) :=
  inferInstanceAs (Decidable (∀ note ∈ notesWithPast (Score.marks (score.played settings)),
    ∀ key ∈ settings.keyAfter? note.1 note.2, -2 ^ 31 ≤ key ∧ key < 2 ^ 31))

/-! ### Frequencies -/

/-- The distance of a key that fits is exact but at the lowest keys, where it wraps around. -/
theorem wrapped_distance {key : Int} (hlow : -2 ^ 31 ≤ key) (hhigh : key < 2 ^ 31) :
    wrapped (key - concertA) = key - concertA ∨
      key < concertA - 12900 ∧ 12183 ≤ wrapped (key - concertA) := by
  by_cases hfits : -2 ^ 31 ≤ key - concertA
  · exact .inl (wrapped_of_fits hfits (by unfold concertA; omega))
  · rw [wrapped_eq_bmod, Int.bmod_def]
    unfold concertA at hfits ⊢
    omega

theorem frequency_key_eq_zero_iff {key : Int} (hlow : -2 ^ 31 ≤ key) (hhigh : key < 2 ^ 31)
    (hfinite : (({} : Tuning).frequency key).isFinite = true) :
    ({} : Tuning).frequency key = 0 ↔ key ≤ concertA - 12900 := by
  rw [isFinite_frequency_iff] at hfinite
  rw [frequency_eq_zero_iff]
  have hdistance := wrapped_distance hlow hhigh
  omega

theorem isFinite_frequency_of_high {key : Int} (hhigh : concertA + 12183 ≤ key)
    (hlt : key < 2 ^ 31) : (({} : Tuning).frequency key).isFinite = false := by
  have hlow : -2 ^ 31 ≤ key := le_trans (by decide) hhigh
  rw [← Bool.not_eq_true, isFinite_frequency_iff, not_lt]
  rcases wrapped_distance hlow hlt with hexact | ⟨-, hwraps⟩
  · rw [hexact]
    exact le_sub_iff_add_le'.2 hhigh
  · exact hwraps

/-- A note that sounds at a finite frequency is silent if it is a rest, or if its key is too low. -/
theorem frequencyAfter_eq_zero_iff (htuning : settings.tuning = {}) (hdegree : n.degree.toNat ≤ 7)
    (hfit : ∀ key ∈ settings.keyAfter? past n, -2 ^ 31 ≤ key ∧ key < 2 ^ 31)
    (hfinite : (settings.frequencyAfter past n).isFinite = true) :
    settings.frequencyAfter past n = 0 ↔
      n.degree = 0 ∨ ∃ key ∈ settings.keyAfter? past n, key ≤ concertA - 12900 := by
  have hrest : settings.keyAfter? past n = none ↔ n.degree = 0 := keyAfter?_eq_none_iff hdegree
  rw [Settings.frequencyAfter, htuning] at hfinite ⊢
  rw [← hrest]
  cases hkey : settings.keyAfter? past n with
  | none => exact iff_of_true rfl (.inl rfl)
  | some key =>
      rw [hkey] at hfinite
      obtain ⟨hlow, hhigh⟩ := hfit key hkey
      simpa using frequency_key_eq_zero_iff hlow hhigh hfinite

/-! ### What is played in range -/

theorem frequencies_of_foldlM {nodes : Score} {last : Player}
    (h : nodes.foldlM settings.playNode settings.player = .ok last) :
    last.frequencies.reverse
      = (notesWithPast nodes.marks).map fun (past, n) => settings.frequencyAfter past n := by
  rw [← foldl_play_of_foldlM h, Player.frequencies_foldl_play]
  show ((melody settings.tuning (settings.tonicAfter []) _).reverse ++ []).reverse = _
  rw [List.append_nil, List.reverse_reverse, melody_eq_map]
  rfl

/-- What is played sounds at finite frequencies. -/
theorem isFinite_frequencyAfter {nodes : Score} {last : Player} (hsettings : settings.fault? = none)
    (hfault : ∀ node ∈ nodes, node.fault? = none)
    (h : nodes.foldlM settings.playNode settings.player = .ok last)
    (hmem : (past, n) ∈ notesWithPast nodes.marks) :
    (settings.frequencyAfter past n).isFinite = true := by
  have htimed := (recalls_of_foldlM hsettings hfault h).1
  have hsounds : settings.frequencyAfter past n ∈ last.frequencies := by
    rw [← List.mem_reverse, frequencies_of_foldlM h]
    exact List.mem_map_of_mem hmem
  obtain ⟨event, hevent, hfrequency⟩ := List.mem_filterMap.1 hsounds
  have hfinite := htimed.events event hevent
  cases event with
  | boundary => exact absurd hfrequency.symm (Option.some_ne_none _)
  | pitch frequency time =>
      obtain rfl := Option.some.inj hfrequency
      exact (Bool.and_eq_true_iff.1 hfinite).1

/-- A note that is too high is never played in range. -/
theorem foldlM_ne_ok_of_high {nodes : Score} {key : Int} (htuning : settings.tuning = {})
    (hsettings : settings.fault? = none) (hfault : ∀ node ∈ nodes, node.fault? = none)
    (hmem : (past, n) ∈ notesWithPast nodes.marks) (hkey : settings.keyAfter? past n = some key)
    (hhigh : concertA + 12183 ≤ key) (hlt : key < 2 ^ 31) (last : Player) :
    nodes.foldlM settings.playNode settings.player ≠ .ok last := by
  intro hplay
  have hfinite := isFinite_frequencyAfter hsettings hfault hplay hmem
  rw [Settings.frequencyAfter, hkey, htuning] at hfinite
  exact Bool.noConfusion (hfinite.symm.trans (isFinite_frequency_of_high hhigh hlt))

namespace Score

variable {score : Score}

/-- Nodes that cannot be played one after the other stop at one of them. -/
theorem exists_of_straight_error {nodes : Score} {fault : Fault}
    (h : straight settings nodes = .error fault) :
    ∃ culprit ∈ nodes, fault = .outOfRange culprit.span := by
  rw [straight] at h
  cases hplay : nodes.foldlM settings.playNode settings.player with
  | ok last =>
      rw [hplay] at h
      exact absurd h (by simp [Except.map])
  | error reason =>
      rw [hplay] at h
      obtain rfl : reason = fault := Except.error.inj h
      obtain ⟨before, culprit, after, p, rfl, -, hculprit⟩ := exists_of_foldlM_error hplay
      exact ⟨culprit, List.mem_append_right before List.mem_cons_self, fault_of_playNode hculprit⟩

/-- Where the node behind some others is not played, the fault is theirs or its own. -/
theorem straight_eq_of_stopped {before after : Score} {node : Node}
    (h : ∀ last, (before ++ [node]).foldlM settings.playNode settings.player ≠ .ok last) :
    straight settings (before ++ node :: after)
      = straight settings before >>= fun _ => .error (.outOfRange node.span) := by
  rw [straight, straight, List.foldlM_append]
  rw [List.foldlM_append] at h
  cases hbefore : before.foldlM settings.playNode settings.player with
  | error fault => rfl
  | ok p =>
      rw [hbefore] at h
      show (((node :: after).foldlM settings.playNode p).map Player.finish : Except Fault _)
        = .error (.outOfRange node.span)
      rw [List.foldlM_cons]
      cases hplay : settings.playNode p node with
      | error fault =>
          rw [fault_of_playNode hplay]
          rfl
      | ok q => exact absurd (by simp [hplay, bind, Except.bind, pure, Except.pure]) (h q)

/-- A note that is too high stops a performance, unless a node before it does. -/
theorem perform_of_high {before after : Score} {node : Node} {key : Int}
    (htuning : settings.tuning = {}) (hrefusal : score.refusal? settings = none)
    (hplayed : score.played settings = before ++ node :: after) (hnode : node.mark = .note n)
    (hkey : settings.keyAfter? (marks before) n = some key) (hhigh : concertA + 12183 ≤ key)
    (hlt : key < 2 ^ 31) :
    score.perform settings
      = straight settings before >>= fun _ => .error (.outOfRange node.span) := by
  obtain ⟨hsettings, hscore⟩ := refusal?_eq_none_iff.1 hrefusal
  have hfault : ∀ other ∈ before ++ [node], other.fault? = none := by
    intro other hmem
    have hother : other ∈ score.played settings := by
      rw [hplayed, ← List.singleton_append, ← List.append_assoc]
      exact List.mem_append_left after hmem
    exact score_fault?_eq_none_iff.1 hscore other (mem_of_mem_played hother)
  have hmarks : marks (before ++ [node]) = marks before ++ [.note n] := by
    rw [marks, List.map_append, List.map_singleton, hnode, ← marks]
  rw [perform_eq_straight hrefusal, hplayed]
  exact straight_eq_of_stopped (foldlM_ne_ok_of_high htuning hsettings hfault
    (hmarks ▸ mem_notesWithPast (marks before) [] n) hkey hhigh hlt)

/--
**A note of a performance is silent if it is a rest or too low, and a note that is too high is
not performed.**  The fault is then at the first node, up to the note itself, behind which the
numbers are out of range.
-/
theorem perform_silence {text : List Char} (htuning : settings.tuning = {})
    (hfit : (ofText text).KeysFit settings) :
    (∀ p, (ofText text).perform settings = .ok p →
      List.Forall₂
        (fun (past, n) frequency => frequency = 0 ↔
          n.degree = 0 ∨ ∃ key ∈ settings.keyAfter? past n, key ≤ concertA - 12900)
        (notesWithPast (marks ((ofText text).played settings))) (p.pitches.map Prod.snd)) ∧
    ∀ before node after n, (ofText text).refusal? settings = none →
      (ofText text).played settings = before ++ node :: after → node.mark = .note n →
      (∃ key ∈ settings.keyAfter? (marks before) n, concertA + 12183 ≤ key) →
      (∃ culprit ∈ before ++ [node],
        (ofText text).perform settings = .error (.outOfRange culprit.span)) ∧
      ((straight settings before).isOk = true →
        (ofText text).perform settings = .error (.outOfRange node.span)) := by
  constructor
  · intro p hp
    have hpitches : p.pitches.map Prod.snd
        = (notesWithPast (marks ((ofText text).played settings))).map
          fun (past, n) => settings.frequencyAfter past n :=
      (map_snd_pitches_of_perform hp).trans (@melody_eq_map settings [] _)
    rw [hpitches, List.forall₂_map_right_iff, List.forall₂_same]
    rintro ⟨past, n⟩ hnote
    obtain ⟨last, -, hplay, hsettings, hfault⟩ := exists_run_of_perform hp
    obtain ⟨node, hplayed, hmark⟩ := List.mem_map.1 (note_mem_of_mem_notesWithPast hnote)
    have hreadable := readable_ofText text node (mem_of_mem_played hplayed)
    rw [hmark] at hreadable
    exact frequencyAfter_eq_zero_iff htuning hreadable (hfit _ hnote)
      (isFinite_frequencyAfter hsettings hfault hplay hnote)
  · rintro before node after n hrefusal hplayed hnode ⟨key, hkey, hhigh⟩
    have hmem : (marks before, n) ∈ notesWithPast (marks ((ofText text).played settings)) := by
      rw [hplayed, marks, List.map_append, List.map_cons, hnode]
      exact mem_notesWithPast (marks before) (marks after) n
    rw [perform_of_high htuning hrefusal hplayed hnode hkey hhigh (hfit _ hmem key hkey).2]
    cases hbefore : straight settings before with
    | error fault =>
        obtain ⟨culprit, hculprit, rfl⟩ := exists_of_straight_error hbefore
        exact ⟨⟨culprit, List.mem_append_left _ hculprit, rfl⟩, fun hok => Bool.noConfusion hok⟩
    | ok p => exact ⟨⟨node, List.mem_append_right before List.mem_cons_self, rfl⟩, fun _ => rfl⟩

/-- Notes and rests in two keys. -/
def pausing : Score := ofText "1 0 3=bA #4+ 0& ^7-".toList

/-- The same degree twice, the second time at the first octave that is too high. -/
def shrill : Score := ofText ("1 1".toList ++ List.replicate 1016 '+')

theorem perform_silence_pausing :
    (pausing.KeysFit {} ∧ ∃ p, pausing.perform {} = .ok p ∧
      List.Forall₂
        (fun (past, n) frequency => frequency = 0 ↔
          n.degree = 0 ∨ ∃ key ∈ Settings.keyAfter? {} past n, key ≤ concertA - 12900)
        (notesWithPast (marks (pausing.played {}))) (p.pitches.map Prod.snd)) ∧
    (shrill.KeysFit {} ∧ shrill.refusal? {} = none) ∧
      shrill.perform {} = .error (.outOfRange ⟨2, 1019⟩) := by
  have hpausing : pausing.KeysFit {} := by decide +kernel
  obtain ⟨p, hp⟩ : ∃ p, pausing.perform {} = .ok p := exists_ok_of_isOk (by decide +kernel)
  have hshrill : shrill.KeysFit {} := by decide +kernel
  have hrefusal : shrill.refusal? {} = none := by decide +kernel
  have hplayed : shrill.played {}
      = shrill.take 1 ++ ⟨⟨2, 1019⟩, some ⟨1, 3⟩, '1' :: List.replicate 1016 '+',
        .note { degree := 1, octave := 1016 }⟩ :: [] := by decide +kernel
  have hhigh : ∃ key ∈ Settings.keyAfter? {} (marks (shrill.take 1))
      { degree := 1, octave := 1016 }, concertA + 12183 ≤ key := by decide +kernel
  exact ⟨⟨hpausing, p, hp, (perform_silence rfl hpausing).1 p hp⟩, ⟨hshrill, hrefusal⟩,
    ((perform_silence rfl hshrill).2 _ _ [] _ hrefusal hplayed rfl hhigh).2 (by decide +kernel)⟩

/-- A note in the last octave below the range. -/
def unheard : Score := ofText ('1' :: List.replicate 1075 '-')

/-- It is no rest and is struck, but a frequency of zero is all that is heard of it. -/
theorem unheard_silent : unheard.KeysFit {} ∧ ∃ p, unheard.perform {} = .ok p ∧
    p.events.countP (!·.isPitch) = 2 ∧
    ¬ List.Forall₂ (fun (_, n) frequency => frequency = 0 ↔ n.degree = 0)
      (notesWithPast (marks (unheard.played {}))) (p.pitches.map Prod.snd) := by
  have hnotes : notesWithPast (marks (unheard.played {}))
      = [([], { degree := 1, octave := -1075 })] := by decide +kernel
  obtain ⟨p, hp, hheard⟩ : ∃ p, unheard.perform {} = .ok p ∧
      (p.pitches.map Prod.snd, p.events.countP (!·.isPitch)) = ([0], 2) :=
    exists_ok_of_map (by decide +kernel)
  obtain ⟨hpitches, hboundaries⟩ := Prod.mk.inj hheard
  refine ⟨by decide +kernel, p, hp, hboundaries, ?_⟩
  rw [hnotes, hpitches]
  intro hsilent
  cases hsilent with
  | cons hnote _ => exact absurd (hnote.1 rfl) (by decide)

end Score

end NumberedScore
