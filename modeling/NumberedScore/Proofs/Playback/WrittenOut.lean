/-
Repeats written out.

Whoever copies a piece for players who do not know repeat signs writes each pass through a
section after the one before, with the ending that belongs to it.  `Part` is what such a
piece is made of, and `Part.writtenOut` is the copy.

Both are heard alike (`hears_part`), part by part and within a part pass by pass.  What
makes the parts independent is that between two of them the walk has no section to return to
and no ending to pass over (`Section.Idle`), although it still counts the pass of the section
before: that count is what an ending behind a repeat sign refers to, and nothing else reads
it before the next start sets it to one.
-/
import NumberedScore.Proofs.Playback.Music

namespace NumberedScore

variable {α : Type} {cue : α → Cue} {passes : Nat}

/-! ### The parts of a piece -/

/-- An ending: the mark that says which pass it belongs to, and its music. -/
structure Ending (α : Type) where
  mark : α
  music : List α

/-- A section between repeat signs. -/
structure Strain (α : Type) where
  start : α
  /-- What every pass begins with. -/
  music : List α
  /-- What one pass alone goes on with. -/
  ending : Option (Ending α) := none
  stop : α
  /-- The ending behind the sign that sends all passes back but the last. -/
  last : Option (Ending α) := none

/-- A part of a piece: music without cues, or a section that is repeated. -/
inductive Part (α : Type) where
  | straight (music : List α)
  | repeated (strain : Strain α)

/-- An ending as it stands in the score. -/
def Ending.nodes (e : Ending α) : List α := e.mark :: e.music

/-- The music of an ending, in the pass it belongs to. -/
def Ending.inPass (cue : α → Cue) (pass : Nat) (e : Ending α) : List α :=
  if cue e.mark = .ending pass then e.music else []

namespace Strain

/-- What stands between the repeat signs. -/
def body (s : Strain α) : List α := s.music ++ s.ending.elim [] Ending.nodes

/-- A section as it stands in the score. -/
def nodes (s : Strain α) : List α :=
  s.start :: (s.body ++ s.stop :: s.last.elim [] Ending.nodes)

/-- One pass through a section. -/
def inPass (cue : α → Cue) (s : Strain α) (pass : Nat) : List α :=
  s.music ++ s.ending.elim [] (Ending.inPass cue pass)

/-- All passes through a section one after the other, and its last ending. -/
def writtenOut (cue : α → Cue) (passes : Nat) (s : Strain α) : List α :=
  (List.range' 1 passes).flatMap (s.inPass cue) ++ s.last.elim [] Ending.music

/-- The signs of a section are what they should be, and its music has no cues. -/
structure Proper (cue : α → Cue) (passes : Nat) (s : Strain α) : Prop where
  start : cue s.start = .repeatStart
  music : ∀ node ∈ s.music, cue node = .other
  ending : ∀ e ∈ s.ending, (∃ pass, cue e.mark = .ending pass) ∧ ∀ node ∈ e.music, cue node = .other
  stop : cue s.stop = .repeatStop
  last : ∀ e ∈ s.last, cue e.mark = .ending passes ∧ ∀ node ∈ e.music, cue node = .other

end Strain

namespace Part

/-- A part as it stands in the score. -/
def nodes : Part α → List α
  | straight music => music
  | repeated strain => strain.nodes

/-- A part without repeat signs. -/
def writtenOut (cue : α → Cue) (passes : Nat) : Part α → List α
  | straight music => music
  | repeated strain => strain.writtenOut cue passes

/-- Music has no cues, and sections are proper. -/
def Proper (cue : α → Cue) (passes : Nat) : Part α → Prop
  | straight music => ∀ node ∈ music, cue node = .other
  | repeated strain => strain.Proper cue passes

end Part

/-! ### Hearing a section -/

/-- An ending is heard in its own pass and in no other. -/
theorem hears_ending {e : Ending α} {pass : Nat} (hmark : cue e.mark = .ending pass)
    (hmusic : ∀ node ∈ e.music, cue node = .other) {s : Section α} (hsilent : s.silent = false)
    (rest : List α) (returns : Option Nat) :
    Hears cue passes ⟨e.nodes ++ rest, s, returns⟩ (e.inPass cue s.pass)
      ⟨rest, { s with ending := some pass }, returns⟩ := by
  unfold Ending.inPass
  rw [hmark]
  by_cases hpass : pass = s.pass
  · rw [if_pos (by rw [hpass])]
    exact (hears_mark hmark hsilent _ returns).trans
      (hears_music hmusic (by simp [Section.silent, hpass]) rest returns)
  · rw [if_neg (by simpa using hpass)]
    refine hears_otherPass hmark (fun node hmem => ?_) hsilent hpass rest returns
    rw [hmusic node hmem]
    exact Cue.noConfusion

/-- Within a section a pass is heard up to the repeat sign. -/
theorem Strain.Proper.hears_body {s : Strain α} (h : s.Proper cue passes) (start : Option (List α))
    (pass : Nat) (rest : List α) (returns : Option Nat) :
    ∃ ending, Hears cue passes ⟨s.body ++ rest, { start, pass }, returns⟩ (s.inPass cue pass)
      ⟨rest, { start, pass, ending }, returns⟩ := by
  have hmusic (after : List α) : Hears cue passes ⟨s.music ++ after, { start, pass }, returns⟩
      s.music ⟨after, { start, pass }, returns⟩ := hears_music h.music rfl after returns
  unfold Strain.body Strain.inPass
  cases he : s.ending with
  | none =>
      refine ⟨none, ?_⟩
      simp only [Option.elim_none, List.append_nil]
      exact hmusic rest
  | some e =>
      obtain ⟨⟨only, hmark⟩, hending⟩ := h.ending e he
      refine ⟨some only, ?_⟩
      simp only [Option.elim_some, List.append_assoc]
      exact (hmusic _).trans (hears_ending hmark hending rfl rest returns)

/-- The sign at the end of a pass is heard as nothing, whatever ending stands before it. -/
theorem Strain.Proper.hears_returned {s : Strain α} (h : s.Proper cue passes) {start : List α}
    {pass : Nat} (hpass : pass < passes) (ending : Option Nat) (rest : List α) :
    Hears cue passes ⟨s.stop :: rest, { start := some start, pass, ending }, none⟩ []
      ⟨start, { start := some start, pass := pass + 1 }, none⟩ :=
  (Stepped.returned h.stop rfl hpass (by simp)).hears_nil (by simp [h.stop])

theorem Strain.Proper.hears_closed {s : Strain α} (h : s.Proper cue passes) (start : List α)
    (ending : Option Nat) (rest : List α) :
    Hears cue passes ⟨s.stop :: rest, { start := some start, pass := passes, ending }, none⟩ []
      ⟨rest, { pass := passes }, none⟩ := by
  have hstep : Stepped cue passes
      ⟨s.stop :: rest, { start := some start, pass := passes, ending }, none⟩
      ⟨s.stop, passes, .played⟩ ⟨rest, { pass := passes }, none⟩ :=
    .closed h.stop rfl fun hpass => absurd hpass (Nat.lt_irrefl passes)
  exact hstep.hears_nil (by simp [h.stop])

/-- The passes that are left are heard one after the other. -/
theorem Strain.Proper.hears_passes {s : Strain α} (h : s.Proper cue passes) (rest : List α)
    (left pass : Nat) (hleft : pass + left = passes) :
    Hears cue passes
      ⟨s.body ++ s.stop :: rest, { start := some (s.body ++ s.stop :: rest), pass }, none⟩
      ((List.range' pass (left + 1)).flatMap (s.inPass cue)) ⟨rest, { pass := passes }, none⟩ := by
  obtain ⟨ending, hbody⟩ :=
    h.hears_body (some (s.body ++ s.stop :: rest)) pass (s.stop :: rest) none
  induction left generalizing pass ending with
  | zero =>
      obtain rfl : pass = passes := hleft
      simpa using hbody.trans (h.hears_closed _ ending rest)
  | succ left ih =>
      obtain ⟨ending', hbody'⟩ :=
        h.hears_body (some (s.body ++ s.stop :: rest)) (pass + 1) (s.stop :: rest) none
      have hpass : pass < passes := by omega
      have hlater := ih (pass + 1) (by omega) ending' hbody'
      rw [List.range'_succ, List.flatMap_cons]
      simpa using (hbody.trans (h.hears_returned hpass ending rest)).trans hlater

/-- A section without its last ending is heard as often as it is to be played. -/
theorem Strain.Proper.hears_section {s : Strain α} (h : s.Proper cue passes) (hpasses : passes ≠ 0)
    {memory : Section α} (hsilent : memory.silent = false) (rest : List α) :
    Hears cue passes ⟨s.start :: (s.body ++ s.stop :: rest), memory, none⟩
      ((List.range' 1 passes).flatMap (s.inPass cue)) ⟨rest, { pass := passes }, none⟩ := by
  have hopen : Hears cue passes ⟨s.start :: (s.body ++ s.stop :: rest), memory, none⟩ []
      ⟨s.body ++ s.stop :: rest, { start := some (s.body ++ s.stop :: rest) }, none⟩ :=
    (Stepped.opened h.start hsilent).hears_nil (by simp [h.start])
  obtain ⟨left, rfl⟩ := Nat.exists_eq_succ_of_ne_zero hpasses
  exact hopen.trans (h.hears_passes rest left 1 (Nat.add_comm 1 left))

/-- A section is heard in all its passes, and then its last ending. -/
theorem Strain.Proper.hears {s : Strain α} (h : s.Proper cue passes) (hpasses : passes ≠ 0)
    {memory : Section α} (hidle : memory.Idle) (rest : List α) :
    ∃ memory', Section.Idle memory' ∧ Hears cue passes ⟨s.nodes ++ rest, memory, none⟩
      (s.writtenOut cue passes) ⟨rest, memory', none⟩ := by
  have hsection := h.hears_section hpasses hidle.silent
  unfold Strain.nodes Strain.writtenOut
  cases he : s.last with
  | none =>
      refine ⟨{ pass := passes }, ⟨rfl, rfl⟩, ?_⟩
      simpa using hsection rest
  | some e =>
      obtain ⟨hmark, hmusic⟩ := h.last e he
      -- the pass still counted is the last one, so this ending is played
      have hlast : Hears cue passes ⟨e.nodes ++ rest, { pass := passes }, none⟩
          (e.inPass cue passes) ⟨rest, { pass := passes, ending := some passes }, none⟩ :=
        hears_ending hmark hmusic rfl rest none
      rw [show e.inPass cue passes = e.music from if_pos hmark] at hlast
      refine ⟨{ pass := passes, ending := some passes }, ⟨rfl, by simp [Section.silent]⟩, ?_⟩
      simpa [Ending.nodes] using (hsection (e.nodes ++ rest)).trans hlast

/-! ### Hearing a piece -/

theorem hears_part {part : Part α} (h : part.Proper cue passes) (hpasses : passes ≠ 0)
    {memory : Section α} (hidle : memory.Idle) (rest : List α) :
    ∃ memory', Section.Idle memory' ∧ Hears cue passes ⟨part.nodes ++ rest, memory, none⟩
      (part.writtenOut cue passes) ⟨rest, memory', none⟩ := by
  cases part with
  | straight music => exact ⟨memory, hidle, hears_music h hidle.silent rest none⟩
  | repeated strain => exact Strain.Proper.hears h hpasses hidle rest

theorem hears_parts {parts : List (Part α)} (h : ∀ part ∈ parts, part.Proper cue passes)
    (hpasses : passes ≠ 0) {memory : Section α} (hidle : memory.Idle) :
    ∃ memory', Hears cue passes ⟨parts.flatMap Part.nodes, memory, none⟩
      (parts.flatMap (Part.writtenOut cue passes)) ⟨[], memory', none⟩ := by
  induction parts generalizing memory with
  | nil => exact ⟨memory, .refl _⟩
  | cons part later ih =>
      obtain ⟨hpart, hlater⟩ := List.forall_mem_cons.1 h
      obtain ⟨mid, hmid, hfirst⟩ := hears_part hpart hpasses hidle (later.flatMap Part.nodes)
      obtain ⟨last, hrest⟩ := ih hlater hmid
      exact ⟨last, hfirst.trans hrest⟩

namespace Score

/-- A piece as it is notated. -/
def ofParts (parts : List (Part Node)) : Score := parts.flatMap Part.nodes

/-- The same piece without repeat signs. -/
def writtenOut (settings : Settings) (parts : List (Part Node)) : Score :=
  parts.flatMap (Part.writtenOut Node.cue settings.passes.toNat)

/-- **A piece is performed like the same piece with its repeats written out.** -/
theorem perform_writtenOut (settings : Settings) {parts : List (Part Node)}
    (hparts : ∀ part ∈ parts, part.Proper Node.cue settings.passes.toNat)
    (hlength : (ofParts parts).length < UInt32.size) (hfault : (ofParts parts).fault? = none) :
    (ofParts parts).perform settings = (writtenOut settings parts).perform settings := by
  cases hsettings : settings.fault? with
  | some reason => simp only [perform_of_settings_fault hsettings]
  | none =>
      have hpasses : settings.passes.toNat ≠ 0 := passes_ne_zero hsettings
      have hidle : Section.Idle ({} : Section Node) := ⟨rfl, rfl⟩
      obtain ⟨memory, hheard⟩ := hears_parts hparts hpasses hidle
      rw [perform_music settings hfault, music_eq_of_hears_unlimited hlength hheard rfl]
      rfl

/-- The node of a token that stands at an offset. -/
def nodeAt (start : Nat) (token : String) : Node := Node.ofToken none ⟨token.toList, start⟩

/-- A section with an ending for each pass, its second one behind the repeat sign. -/
def voltas : Strain Node where
  start := nodeAt 2 "||:"
  music := [nodeAt 6 "!90", nodeAt 10 "2"]
  ending := some ⟨nodeAt 12 "[1.", [nodeAt 16 "3&"]⟩
  stop := nodeAt 19 ":||"
  last := some ⟨nodeAt 23 "[2.", [nodeAt 27 "4"]⟩

/-- A section without endings. -/
def refrain : Strain Node where
  start := nodeAt 29 "||:"
  music := [nodeAt 33 "5", nodeAt 35 "|", nodeAt 37 "-"]
  stop := nodeAt 39 ":||"

/-- Parts of every form one after the other. -/
def medley : List (Part Node) :=
  [.straight [nodeAt 0 "1"], .repeated voltas, .repeated refrain, .straight [nodeAt 43 "6"]]

theorem perform_writtenOut_medley :
    ((∀ part ∈ medley, part.Proper Node.cue 2) ∧ (ofParts medley).length < UInt32.size ∧
      (ofParts medley).fault? = none) ∧
      (ofParts medley).perform {} = (writtenOut {} medley).perform {} := by
  have hvoltas : voltas.Proper Node.cue 2 :=
    { start := by decide
      music := by decide
      ending := by
        intro e he
        obtain rfl := Option.some.inj he
        exact ⟨⟨1, by decide⟩, by decide⟩
      stop := by decide
      last := by
        intro e he
        obtain rfl := Option.some.inj he
        exact ⟨by decide, by decide⟩ }
  have hrefrain : refrain.Proper Node.cue 2 :=
    { start := by decide
      music := by decide
      ending := fun e he => absurd he (by simp [refrain])
      stop := by decide
      last := fun e he => absurd he (by simp [refrain]) }
  have hparts : ∀ part ∈ medley, part.Proper Node.cue 2 := by
    intro part hpart
    simp only [medley, List.mem_cons, List.not_mem_nil, or_false] at hpart
    rcases hpart with rfl | rfl | rfl | rfl
    · exact (by decide : ∀ node ∈ [nodeAt 0 "1"], node.cue = .other)
    · exact hvoltas
    · exact hrefrain
    · exact (by decide : ∀ node ∈ [nodeAt 43 "6"], node.cue = .other)
  have hlength : (ofParts medley).length < UInt32.size := by decide
  have hfault : (ofParts medley).fault? = none := by decide
  exact ⟨⟨hparts, hlength, hfault⟩, perform_writtenOut {} hparts hlength hfault⟩

end Score

end NumberedScore
