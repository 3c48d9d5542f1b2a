/-
The order in which the nodes of a score are played.

This is about repeat signs and alternate endings alone, so nodes are of any type and a
cue says what each one means to the walk.  Places in a score are the nodes from there to
the end: the start of a section is remembered as what follows it, and going back is
continuing with that.

A walk is made of legs, each straight through the score until a repeat sign sends it
back.  A leg ends because the rest of the score gets shorter, and there are only so many
legs because each return uses up one of a number allowed at the outset.  `visits` is the
walk as a list.  `walk` runs along it and may stop early, without ever building the legs
behind the stop; `walk_eq_foldlM` says that this is the only difference.

The same walk can be taken one node at a time.  A `Place` is all that decides how it goes
on, and `Place.step` is one node.  `Walked` relates two places of a walk by the visits
between them, and `Carried` is `walk` in this form.  Here the limit on returns is a part
of the place and may be left out.
-/

namespace NumberedScore

/-- What a node means to the order of playing. -/
inductive Cue where
  /-- A section to be repeated starts after this node. -/
  | repeatStart
  /-- The repeated section ends here. -/
  | repeatStop
  /-- What follows belongs to one pass only. -/
  | ending (pass : Nat)
  /-- Nothing. -/
  | other
  deriving DecidableEq, Repr

/-- What the walk remembers about the repeated section it is in. -/
structure Section (α : Type) where
  /-- The nodes after the start of the section, as long as it may be returned to. -/
  start : Option (List α) := none
  /-- The pass through the section, counted from one. -/
  pass : Nat := 1
  /-- The only pass in which the ending being walked through is played. -/
  ending : Option Nat := none

/-- What becomes of a node when the walk comes to it. -/
inductive Fate where
  /-- It lies in an ending of another pass and is passed over. -/
  | skipped
  /-- It takes effect. -/
  | played
  /-- It ends a section that never started and changes nothing. -/
  | stray
  /-- It sends the walk back to the start of the section. -/
  | returned
  deriving DecidableEq, Repr

/-- One node met on the walk. -/
structure Visit (α : Type) where
  node : α
  /-- The pass in which it is met. -/
  pass : Nat
  fate : Fate

variable {α σ ε : Type}

namespace Section

/-- Whether nodes are being passed over: the ending belongs to a pass that this is not. -/
def silent (s : Section α) : Bool :=
  match s.ending with
  | some pass => pass != s.pass
  | none => false

/-- Where the walk goes from a node, and what it remembers then. -/
inductive Way (α : Type) where
  | onward (s : Section α)
  | back (nodes : List α) (s : Section α)

/--
The end of a repeated section.

A section that has not been played often enough is returned to.  One that has is over,
but its pass is still counted, so that an ending behind it can belong to the last pass.
Without a start there is nothing to end, and an ending in force stays in force.
-/
def atStop (passes : Nat) (mayReturn : Bool) (s : Section α) : Fate × Way α :=
  match s.start with
  | none => (.stray, .onward s)
  | some nodes =>
    if s.pass < passes ∧ mayReturn then
      (.returned, .back nodes { s with pass := s.pass + 1, ending := none })
    else (.played, .onward { s with start := none, ending := none })

/-- Meet a node with the given cue, the rest of the score behind it. -/
def meet (passes : Nat) (mayReturn : Bool) (s : Section α) (cue : Cue) (rest : List α) :
    Fate × Way α :=
  match cue with
  | .repeatStop => s.atStop passes mayReturn
  | cue =>
    if s.silent then (.skipped, .onward s)
    else
      match cue with
      | .repeatStart => (.played, .onward { start := some rest })
      | .ending pass => (.played, .onward { s with ending := some pass })
      | _ => (.played, .onward s)

end Section

/-- The visits up to the next return or the end of the score, and where the walk goes on. -/
def leg (cue : α → Cue) (passes : Nat) (mayReturn : Bool) :
    List α → Section α → List (Visit α) × Option (List α × Section α)
  | [], _ => ([], none)
  | node :: rest, s =>
    match s.meet passes mayReturn (cue node) rest with
    | (fate, .back nodes s') => ([⟨node, s.pass, fate⟩], some (nodes, s'))
    | (fate, .onward s') =>
      let (later, goesOn) := leg cue passes mayReturn rest s'
      (⟨node, s.pass, fate⟩ :: later, goesOn)

/-- All visits of a walk that may return so many times. -/
def visits (cue : α → Cue) (passes : Nat) : Nat → List α → Section α → List (Visit α)
  | 0, nodes, s => (leg cue passes false nodes s).1
  | returns + 1, nodes, s =>
    match leg cue passes true nodes s with
    | (met, none) => met
    | (met, some (nodes, s)) => met ++ visits cue passes returns nodes s

/-- Carry a state along a walk until it is over or the state refuses a visit. -/
def walk (cue : α → Cue) (passes : Nat) (follow : σ → Visit α → Except ε σ) :
    Nat → List α → Section α → σ → Except ε σ
  | 0, nodes, s, state => (leg cue passes false nodes s).1.foldlM follow state
  | returns + 1, nodes, s, state =>
    match leg cue passes true nodes s with
    | (met, none) => met.foldlM follow state
    | (met, some (nodes, s)) =>
      match met.foldlM follow state with
      | .ok state => walk cue passes follow returns nodes s state
      | .error e => .error e

/-- A walk carries its state along the list of its visits. -/
theorem walk_eq_foldlM (cue : α → Cue) (passes : Nat) (follow : σ → Visit α → Except ε σ)
    (returns : Nat) (nodes : List α) (s : Section α) (state : σ) :
    walk cue passes follow returns nodes s state
      = (visits cue passes returns nodes s).foldlM follow state := by
  induction returns generalizing nodes s state with
  | zero => rfl
  | succ returns ih =>
    rw [walk, visits]
    split
    · rfl
    · rw [List.foldlM_append]
      split
      · next h => rw [ih, h]; rfl
      · next h => rw [h]; rfl

/-- The number of returns allowed to a score, a 64-bit word; no walk needs more. -/
def returnsAllowed (passes : Nat) (nodes : List α) : Nat :=
  min (nodes.length * passes) (UInt64.size - 1)

/-! ### One node at a time -/

/-- Where a walk has got to. -/
structure Place (α : Type) where
  /-- The nodes still ahead. -/
  ahead : List α
  /-- What the walk remembers. -/
  memory : Section α := {}
  /-- How often it may still return; `none` is as often as it likes. -/
  returns : Option Nat

/-- Meet the next node: what is visited, and where the walk is then. -/
def Place.step (cue : α → Cue) (passes : Nat) (place : Place α) : Option (Visit α × Place α) :=
  match place.ahead with
  | [] => none
  | node :: rest =>
    match place.memory.meet passes (place.returns != some 0) (cue node) rest with
    | (fate, .onward s) =>
      some (⟨node, place.memory.pass, fate⟩, ⟨rest, s, place.returns⟩)
    | (fate, .back nodes s) =>
      some (⟨node, place.memory.pass, fate⟩, ⟨nodes, s, place.returns.map (· - 1)⟩)

/-- The walk leads from one place to another by these visits. -/
inductive Walked (cue : α → Cue) (passes : Nat) : Place α → List (Visit α) → Place α → Prop where
  | here (place : Place α) : Walked cue passes place [] place
  | on {place next last : Place α} {visit : Visit α} {later : List (Visit α)}
      (h : place.step cue passes = some (visit, next)) (rest : Walked cue passes next later last) :
      Walked cue passes place (visit :: later) last

/-- A state carried along the walk from a place ends with this outcome. -/
inductive Carried (cue : α → Cue) (passes : Nat) (follow : σ → Visit α → Except ε σ) :
    Place α → σ → Except ε σ → Prop where
  /-- The walk is over. -/
  | finished {place : Place α} {state : σ} (h : place.step cue passes = none) :
      Carried cue passes follow place state (.ok state)
  /-- The state refuses a visit. -/
  | refused {place next : Place α} {visit : Visit α} {state : σ} {e : ε}
      (h : place.step cue passes = some (visit, next)) (no : follow state visit = .error e) :
      Carried cue passes follow place state (.error e)
  /-- The state takes a visit and is carried on. -/
  | on {place next : Place α} {visit : Visit α} {state state' : σ} {outcome : Except ε σ}
      (h : place.step cue passes = some (visit, next)) (yes : follow state visit = .ok state')
      (rest : Carried cue passes follow next state' outcome) :
      Carried cue passes follow place state outcome

end NumberedScore
