/-
How often a node takes effect.

A start of a section inside another one counts the passes from one again, so a node between
signs can be met far more often than a section is to be played.  But most of these visits
pass it over.  A section may be entered again from its start because its passes are counted,
and a start further on may be heard in one pass only if in those before it was passed over,
together with all that stands up to the next repeat sign.  So no node is played in more than
one section, and none twice in a pass.

This is a measure again.  `Place.playsLeft` bounds how often nodes can still take effect.
What a section has up to its first sign, its own part, is played once in every pass left.
Whatever stands behind that belongs to no section yet and has all its passes before it.  A
step lowers the measure by what it plays (`Stepped.playsLeft_le`), which needs to know how the
walk got from the start of the section to where it is (`Place.Tracked`).
-/
import Mathlib.Data.List.Nodup
import NumberedScore.Proofs.Playback.Append

namespace NumberedScore

variable {α : Type} {cue : α → Cue} {passes : Nat}

/-! ### From the start of a section -/

/--
What the walk has crossed since the start of its section: nothing that ends one, and nothing
that starts another, unless an ending of another pass is in force.
-/
inductive Place.Tracked (cue : α → Cue) (place : Place α) : Prop where
  /-- There is no section to return to. -/
  | outside (hstart : place.memory.start = none)
  /-- There is one, and these nodes have been crossed in it. -/
  | inside {crossed : List α} (hstart : place.memory.start = some (crossed ++ place.ahead))
      (hstop : ∀ node ∈ crossed, cue node ≠ .repeatStop)
      (hopens : place.memory.silent = false → ∀ node ∈ crossed, cue node ≠ .repeatStart)

/-- Going one node on crosses it. -/
theorem Place.Tracked.onward {node : α} {rest : List α} {s s' : Section α} {returns : Option Nat}
    (h : Place.Tracked cue ⟨node :: rest, s, returns⟩) (hsame : s'.start = s.start)
    (hstop : cue node ≠ .repeatStop)
    (hsilent : s'.silent = false → s.silent = false ∧ cue node ≠ .repeatStart) :
    Place.Tracked cue ⟨rest, s', returns⟩ := by
  cases h with
  | outside hstart => exact .outside (hsame.trans hstart)
  | @inside crossed hstart hstops hopens =>
      have hcrossed : s'.start = some ((crossed ++ [node]) ++ rest) := by
        rw [List.append_assoc]
        exact hsame.trans hstart
      refine .inside hcrossed ?_ fun hheard => ?_
      · exact List.forall_mem_append.2 ⟨hstops, by simpa using hstop⟩
      · obtain ⟨hbefore, hnode⟩ := hsilent hheard
        exact List.forall_mem_append.2 ⟨hopens hbefore, by simpa using hnode⟩

theorem Place.Tracked.start (rest : List α) (pass : Nat) (returns : Option Nat) :
    Place.Tracked cue ⟨rest, { start := some rest, pass }, returns⟩ := by
  have hstart : some rest = some ([] ++ rest) := rfl
  exact .inside hstart (by simp) (by simp)

theorem Stepped.tracked {place next : Place α} {visit : Visit α}
    (h : Stepped cue passes place visit next) (ht : place.Tracked cue) : next.Tracked cue := by
  cases h with
  | skipped hcue hsilent =>
      exact ht.onward rfl hcue fun hheard => absurd (hheard.symm.trans hsilent) (by simp)
  | opened => exact .start ..
  | ending hcue hsilent =>
      exact ht.onward rfl (by simp [hcue]) fun _ => ⟨hsilent, by simp [hcue]⟩
  | played hcue hsilent =>
      exact ht.onward rfl (by simp [hcue]) fun _ => ⟨hsilent, by simp [hcue]⟩
  | stray _ hstart => exact .outside hstart
  | returned => exact .start ..
  | closed => exact .outside rfl

/-! ### The measure -/

/-- Whether a cue starts or ends a section. -/
def Cue.isSign : Cue → Bool
  | repeatStart | repeatStop => true
  | _ => false

/-- What a section has up to its first sign. -/
def ownPart (cue : α → Cue) (nodes : List α) : List α :=
  nodes.takeWhile fun node => !(cue node).isSign

/-- What stands behind that. -/
def otherPart (cue : α → Cue) (nodes : List α) : List α :=
  nodes.dropWhile fun node => !(cue node).isSign

/-- How often nodes of some kind can still take effect. -/
def Place.playsLeft (cue : α → Cue) (passes : Nat) (kind : α → Bool) (place : Place α) : Nat :=
  match place.memory.start with
  | none => passes * place.ahead.countP kind
  | some nodes =>
    (passes - place.memory.pass) * (ownPart cue nodes).countP kind
      + ((ownPart cue nodes).drop (nodes.length - place.ahead.length)).countP kind
      + passes * (otherPart cue nodes).countP kind

/-- Whether a node of some kind takes effect at a visit. -/
def Visit.plays (kind : α → Bool) (visit : Visit α) : Bool :=
  kind visit.node && visit.fate ≠ .skipped

variable {kind : α → Bool}

theorem countP_parts (cue : α → Cue) (kind : α → Bool) (nodes : List α) :
    (ownPart cue nodes).countP kind + (otherPart cue nodes).countP kind = nodes.countP kind := by
  rw [← List.countP_append, ownPart, otherPart, List.takeWhile_append_dropWhile]

theorem ownPart_append {crossed : List α} (h : ∀ node ∈ crossed, (cue node).isSign = false)
    (rest : List α) : ownPart cue (crossed ++ rest) = crossed ++ ownPart cue rest :=
  List.takeWhile_append_of_pos fun node hmem => by simp [h node hmem]

/-- A sign is never in the own part of a section, nor is what stands behind it. -/
theorem suffix_otherPart {node : α} (h : (cue node).isSign = true) (crossed rest : List α) :
    node :: rest <:+ otherPart cue (crossed ++ node :: rest) := by
  induction crossed with
  | nil =>
      have hwhole : otherPart cue (node :: rest) = node :: rest :=
        List.dropWhile_cons_of_neg (by simp [h])
      exact ⟨[], hwhole.symm⟩
  | cons first crossed ih =>
      rw [List.cons_append, otherPart]
      cases hfirst : (cue first).isSign with
      | true =>
          rw [List.dropWhile_cons_of_neg (by simp [hfirst])]
          exact List.suffix_append (first :: crossed) (node :: rest)
      | false =>
          rw [List.dropWhile_cons_of_pos (by simp [hfirst])]
          exact ih

/-- At the start of a section all its passes are left. -/
theorem playsLeft_start (cue : α → Cue) (kind : α → Bool) (rest : List α) (pass : Nat)
    (returns : Option Nat) :
    Place.playsLeft cue passes kind ⟨rest, { start := some rest, pass }, returns⟩
      = (passes - pass + 1) * (ownPart cue rest).countP kind
        + passes * (otherPart cue rest).countP kind := by
  simp only [Place.playsLeft, Nat.sub_self, List.drop_zero]
  rw [Nat.succ_mul]

/-- A sign and what stands behind it have all their passes left. -/
theorem Place.Tracked.mul_countP_le {node : α} {rest : List α} {s : Section α}
    {returns : Option Nat} (h : Place.Tracked cue ⟨node :: rest, s, returns⟩)
    (hsign : (cue node).isSign = true) :
    passes * (node :: rest).countP kind
      ≤ Place.playsLeft cue passes kind ⟨node :: rest, s, returns⟩ := by
  cases h with
  | outside hstart =>
      replace hstart : s.start = none := hstart
      simp only [Place.playsLeft, hstart, Nat.le_refl]
  | @inside crossed hstart =>
      replace hstart : s.start = some (crossed ++ node :: rest) := hstart
      have hle := (suffix_otherPart hsign crossed rest).sublist.countP_le (p := kind)
      simp only [Place.playsLeft, hstart]
      exact Nat.le_trans (Nat.mul_le_mul_left passes hle) (Nat.le_add_left ..)

/-- A node of the own part that is played has one play less left. -/
theorem Place.Tracked.playsLeft_onward {node : α} {rest : List α} {s s' : Section α}
    {returns : Option Nat} (h : Place.Tracked cue ⟨node :: rest, s, returns⟩)
    (hpasses : passes ≠ 0) (hsign : (cue node).isSign = false) (hsilent : s.silent = false)
    (hstart : s'.start = s.start) (hpass : s'.pass = s.pass) :
    Place.playsLeft cue passes kind ⟨rest, s', returns⟩ + (kind node).toNat
      ≤ Place.playsLeft cue passes kind ⟨node :: rest, s, returns⟩ := by
  cases h with
  | outside hnone =>
      replace hnone : s.start = none := hnone
      have hone : (kind node).toNat ≤ passes * (kind node).toNat :=
        Nat.le_mul_of_pos_left _ (Nat.pos_of_ne_zero hpasses)
      simp only [Place.playsLeft, hstart, hnone, countP_cons_eq, Nat.mul_add]
      omega
  | @inside crossed hsome hstops hopens =>
      replace hsome : s.start = some (crossed ++ node :: rest) := hsome
      have hcrossed : ∀ n ∈ crossed, (cue n).isSign = false := by
        intro n hmem
        have hstop := hstops n hmem
        have hopen := hopens hsilent n hmem
        cases hcue : cue n <;> simp_all [Cue.isSign]
      have hown : ownPart cue (crossed ++ node :: rest) = crossed ++ node :: ownPart cue rest := by
        rw [ownPart_append hcrossed, ownPart, List.takeWhile_cons_of_pos (by simp [hsign])]
        rfl
      have hbefore : (crossed ++ node :: rest).length - (node :: rest).length = crossed.length := by
        simp
      have hafter : (crossed ++ node :: rest).length - rest.length = crossed.length + 1 := by
        simp only [List.length_append, List.length_cons]
        omega
      have hdrop : (crossed ++ node :: ownPart cue rest).drop (crossed.length + 1)
          = ownPart cue rest := by simp [List.drop_append]
      simp only [Place.playsLeft, hstart, hpass, hsome, hown, hbefore, hafter, hdrop,
        List.drop_left, countP_cons_eq]
      omega

theorem Visit.plays_of_fate {node : α} {pass : Nat} {fate : Fate} (h : fate ≠ .skipped) :
    Visit.plays kind ⟨node, pass, fate⟩ = kind node := by
  rw [Visit.plays, decide_eq_true h, Bool.and_true]

/-- **Every step pays for what it plays.** -/
theorem Stepped.playsLeft_le {place next : Place α} {visit : Visit α}
    (h : Stepped cue passes place visit next) (ht : place.Tracked cue) (hpasses : passes ≠ 0)
    (hkind : ∀ node, cue node = .repeatStop → kind node = false) :
    next.playsLeft cue passes kind + (visit.plays kind).toNat
      ≤ place.playsLeft cue passes kind := by
  cases h with
  | @skipped node rest s returns =>
      rw [Visit.plays, decide_eq_false (by simp), Bool.and_false, Bool.toNat_false, Nat.add_zero]
      unfold Place.playsLeft
      cases hstart : s.start with
      | none => exact Nat.mul_le_mul_left passes (List.sublist_cons_self node rest).countP_le
      | some nodes =>
          have hle : ((ownPart cue nodes).drop (nodes.length - rest.length)).countP kind
              ≤ ((ownPart cue nodes).drop (nodes.length - (node :: rest).length)).countP kind := by
            refine (List.drop_sublist_drop_left _ ?_).countP_le
            rw [List.length_cons]
            omega
          dsimp only
          omega
  | @opened node rest s returns hcue hsilent =>
      have hle : passes * (node :: rest).countP kind ≤ _ := ht.mul_countP_le (by rw [hcue]; rfl)
      have hone : (kind node).toNat ≤ passes * (kind node).toNat :=
        Nat.le_mul_of_pos_left _ (Nat.pos_of_ne_zero hpasses)
      rw [countP_cons_eq, Nat.mul_add] at hle
      rw [Visit.plays_of_fate (by simp), playsLeft_start,
        Nat.sub_add_cancel (Nat.pos_of_ne_zero hpasses), ← Nat.mul_add, countP_parts]
      omega
  | @ending node rest s returns pass hcue hsilent =>
      rw [Visit.plays_of_fate (by simp)]
      exact ht.playsLeft_onward hpasses (by rw [hcue]; rfl) hsilent rfl rfl
  | @played node rest s returns hcue hsilent =>
      rw [Visit.plays_of_fate (by simp)]
      exact ht.playsLeft_onward hpasses (by rw [hcue]; rfl) hsilent rfl rfl
  | @stray node rest s returns hcue hstart =>
      have hle : passes * rest.countP kind ≤ passes * (node :: rest).countP kind :=
        Nat.mul_le_mul_left passes (List.sublist_cons_self node rest).countP_le
      rw [Visit.plays_of_fate (by simp), hkind node hcue, Bool.toNat_false, Nat.add_zero]
      simpa only [Place.playsLeft, hstart] using hle
  | @returned node rest nodes s returns hcue hstart hpass =>
      have hown : passes - (s.pass + 1) + 1 = passes - s.pass := by omega
      rw [Visit.plays_of_fate (by simp), hkind node hcue, playsLeft_start, hown]
      simp only [Place.playsLeft, hstart, Bool.toNat_false]
      omega
  | @closed node rest nodes s returns hcue =>
      have hle : passes * (node :: rest).countP kind ≤ _ := ht.mul_countP_le (by rw [hcue]; rfl)
      rw [countP_cons_eq, hkind node hcue] at hle
      rw [Visit.plays_of_fate (by simp), hkind node hcue]
      exact hle

/-- A walk plays no more than its measure says. -/
theorem Walked.playsLeft_le {place last : Place α} {visits : List (Visit α)}
    (h : Walked cue passes place visits last) (ht : place.Tracked cue) (hpasses : passes ≠ 0)
    (hkind : ∀ node, cue node = .repeatStop → kind node = false) :
    last.playsLeft cue passes kind + visits.countP (Visit.plays kind)
      ≤ place.playsLeft cue passes kind := by
  induction h with
  | here place => exact Nat.le_refl _
  | @on place next last visit later hstep _ ih =>
      have hstepped := stepped_of_step hstep
      have hrest := ih (hstepped.tracked ht)
      have hone := hstepped.playsLeft_le ht hpasses hkind
      rw [countP_cons_eq]
      omega

/-- Of the nodes of one kind, ends of sections apart, none is played more often than allowed. -/
theorem countP_visits_le (hpasses : passes ≠ 0)
    (hkind : ∀ node, cue node = .repeatStop → kind node = false) (returns : Nat) (nodes : List α) :
    (((visits cue passes returns nodes {}).filter (·.fate ≠ .skipped)).map (·.node)).countP kind
      ≤ passes * nodes.countP kind := by
  obtain ⟨last, -, hwalked⟩ := walked_visits cue passes returns nodes {}
  have hle := hwalked.playsLeft_le (.outside rfl) hpasses hkind
  calc (((visits cue passes returns nodes {}).filter (·.fate ≠ .skipped)).map (·.node)).countP kind
      = (visits cue passes returns nodes {}).countP (Visit.plays kind) := by
        rw [List.countP_map, List.countP_filter]
        rfl
    _ ≤ passes * nodes.countP kind := Nat.le_trans (Nat.le_add_left ..) hle

/-! ### Performing a score -/

namespace Score

variable {settings : Settings} {score : Score}

theorem nodup_zipIdx (score : Score) : score.zipIdx.Nodup := by
  refine List.Nodup.of_map Prod.snd ?_
  rw [List.zipIdx_map_snd]
  exact List.nodup_range' ..

theorem count_numberedPlayed_le (h : settings.fault? = none) {node : Node × Nat}
    (hcue : node.1.cue ≠ .repeatStop) :
    (score.numberedPlayed settings).count node ≤ settings.passes.toNat := by
  have hkind : ∀ other : Node × Nat, other.1.cue = .repeatStop → (other == node) = false := by
    intro other hstop
    refine beq_eq_false_iff_ne.2 ?_
    rintro rfl
    exact hcue hstop
  calc (score.numberedPlayed settings).count node
      ≤ settings.passes.toNat * score.zipIdx.count node :=
        countP_visits_le (passes_ne_zero h) hkind ..
    _ ≤ settings.passes.toNat * 1 :=
        Nat.mul_le_mul_left _ (List.nodup_iff_count_le_one.1 score.nodup_zipIdx node)
    _ = settings.passes.toNat := Nat.mul_one _

theorem countP_isNote_played_le (h : settings.fault? = none) (score : Score) :
    (score.played settings).countP (·.mark.isNote)
      ≤ settings.passes.toNat * score.countP (·.mark.isNote) := by
  refine countP_visits_le (passes_ne_zero h) (fun node hstop => ?_) ..
  cases hmark : node.mark with
  | note n => simp [Node.cue, Mark.cue, hmark] at hstop
  | _ => rfl

/--
**No node but the end of a section takes effect more often than a section is to be played**,
however the signs are nested.  So there are no more events than two for each note and pass,
and the boundary that closes the performance.
-/
theorem played_at_most (h : settings.fault? = none) (score : Score) :
    (∀ node : Node × Nat, node.1.cue ≠ .repeatStop →
      (score.numberedPlayed settings).count node ≤ settings.passes.toNat) ∧
    ∀ p, score.perform settings = .ok p →
      p.events.length ≤ 2 * settings.passes.toNat * score.countP (·.mark.isNote) + 1 := by
  refine ⟨fun node hcue => count_numberedPlayed_le h hcue, fun p hp => ?_⟩
  cases hrefusal : score.refusal? settings with
  | some fault => simp [perform_of_refusal hrefusal] at hp
  | none =>
      rw [perform_eq_straight hrefusal, straight] at hp
      cases hplay : (score.played settings).foldlM settings.playNode settings.player with
      | error fault => simp [hplay, Except.map] at hp
      | ok last =>
          rw [hplay] at hp
          obtain rfl : last.finish = p := Except.ok.inj hp
          obtain ⟨added, hadded, hcount⟩ := exists_events_foldlM hplay
          obtain ⟨time, hclosed⟩ := last.exists_finish_events
          have hempty : settings.player.events = [] := rfl
          calc last.finish.events.length
              = added.length + 1 := by simp [hclosed, hadded, hempty]
            _ ≤ 2 * (score.played settings).countP (·.mark.isNote) + 1 :=
              Nat.succ_le_succ hcount
            _ ≤ 2 * (settings.passes.toNat * score.countP (·.mark.isNote)) + 1 :=
              Nat.succ_le_succ (Nat.mul_le_mul_left 2 (countP_isNote_played_le h score))
            _ = 2 * settings.passes.toNat * score.countP (·.mark.isNote) + 1 := by
              rw [Nat.mul_assoc]

/-- Starts that are passed over until the last pass of the section around them. -/
def enclosed : Score := ofText "||: 0 [3. ||: 1 [2. 0& :|| 0".toList

theorem played_at_most_enclosed :
    ({ passes := 3 : Settings }).fault? = none ∧
      (enclosed.zipIdx[1]?.any fun node => node.1.cue ≠ .repeatStop ∧
        (enclosed.numberedPlayed { passes := 3 }).count node = 3) ∧
      (∀ node : Node × Nat, node.1.cue ≠ .repeatStop →
        (enclosed.numberedPlayed { passes := 3 }).count node ≤ 3) ∧
      ∃ p, enclosed.perform { passes := 3 } = .ok p ∧
        p.events.length ≤ 2 * 3 * enclosed.countP (·.mark.isNote) + 1 := by
  have h : ({ passes := 3 : Settings }).fault? = none := by decide +kernel
  obtain ⟨hcount, hevents⟩ := played_at_most h enclosed
  refine ⟨h, by decide +kernel, hcount, ?_⟩
  obtain ⟨p, hp⟩ : ∃ p, enclosed.perform { passes := 3 } = .ok p :=
    exists_ok_of_isOk (by decide +kernel)
  exact ⟨p, hp, hevents p hp⟩

end Score

end NumberedScore
