/-
What a method does without its redundant jumps.  A jump goes exactly if it leads ahead, to a label among the markers
that follow it.  Execution falls through these markers as well, so that from every place it comes to the same
instruction as before, under the same handlers.
-/
import Unscramble.Proofs.Blocks
import Unscramble.Proofs.RedundantGotos

namespace Unscramble

/-- A plain jump stands at the index, and only markers stand between it and its target, which comes after it. -/
def JumpsAhead (code : List Instr) (index : Nat) : Prop :=
  ∃ target place, code[index]? = some (.jump Opcode.goto target) ∧ code[place]? = some (.label target) ∧ index < place ∧
    ∀ between, index < between → between < place → ∃ marker, code[between]? = some marker ∧ marker.isMarker = true

/-- Execution that comes to an index goes on to an instruction proper or off the end.  It passes markers, and follows
those plain jumps that do not count. -/
inductive Arrives (code : List Instr) (passed : Nat → Prop) : Nat → Nat → Prop where
  | here {index : Nat} : (∀ instr, code[index]? = some instr → instr.isMarker = false) → ¬ passed index →
      Arrives code passed index index
  | marker {index last : Nat} {instr : Instr} : code[index]? = some instr → instr.isMarker = true →
      Arrives code passed (index + 1) last → Arrives code passed index last
  | jump {index place last : Nat} {target : Label} : passed index →
      code[index]? = some (.jump Opcode.goto target) → place? (labelPlaces code) target = some place →
      Arrives code passed place last → Arrives code passed index last

/-- A handler range covers an index of some code. -/
def TryBlock.Covers (block : TryBlock) (code : List Instr) (index : Nat) : Prop :=
  ∃ start stop, place? (labelPlaces code) block.start = some start ∧
    place? (labelPlaces code) block.stop = some stop ∧ start ≤ index ∧ index < stop

namespace RedundantGoto

variable {code rest : List Instr} {instr : Instr} {index : Nat}

section Decisions

theorem landsAt_iff {l : Label} : landsAt l code = true ↔ ∃ place : Nat, code[place]? = some (.label l) ∧
    ∀ before : Nat, before < place → ∃ marker, code[before]? = some marker ∧ marker.isMarker = true := by
  induction code with
  | nil => simp [landsAt]
  | cons instr rest ih =>
      by_cases hmarker : instr.isMarker = true
      · rw [landsAt_cons_marker hmarker, ih]
        constructor
        · rintro (rfl | ⟨place, hplace, hbefore⟩)
          · exact ⟨0, rfl, fun before hlt => absurd hlt (Nat.not_lt_zero before)⟩
          · refine ⟨place + 1, hplace, fun before hlt => ?_⟩
            cases before with
            | zero => exact ⟨instr, rfl, hmarker⟩
            | succ before => exact hbefore before (by omega)
        · rintro ⟨place, hplace, hbefore⟩
          cases place with
          | zero => exact .inl (Option.some.inj hplace)
          | succ place => exact .inr ⟨place, hplace, fun before hlt => hbefore (before + 1) (by omega)⟩
      · have hreal : instr.isMarker = false := by simpa using hmarker
        rw [landsAt_cons_instr hreal]
        constructor
        · intro h
          cases h
        · rintro ⟨place, hplace, hbefore⟩
          refine absurd ?_ hmarker
          cases place with
          | zero =>
              rw [Option.some.inj hplace]
              rfl
          | succ place =>
              obtain ⟨marker, hfirst, hisMarker⟩ := hbefore 0 (by omega)
              rwa [Option.some.inj hfirst]

theorem jumpsAhead_zero : JumpsAhead (instr :: rest) 0 ↔ isRedundant instr rest = true := by
  simp only [isRedundant_eq_true, landsAt_iff]
  constructor
  · rintro ⟨target, place, hjump, hplace, hlt, hbetween⟩
    obtain ⟨place, rfl⟩ : ∃ earlier, place = earlier + 1 := ⟨place - 1, by omega⟩
    exact ⟨target, Option.some.inj hjump, place, hplace, fun before hbefore => hbetween (before + 1) (by omega)
      (by omega)⟩
  · rintro ⟨target, rfl, place, hplace, hbefore⟩
    refine ⟨target, place + 1, rfl, hplace, by omega, fun between hlt hlt' => ?_⟩
    obtain ⟨between, rfl⟩ : ∃ earlier, between = earlier + 1 := ⟨between - 1, by omega⟩
    exact hbefore between (by omega)

theorem jumpsAhead_succ : JumpsAhead (instr :: rest) (index + 1) ↔ JumpsAhead rest index := by
  constructor
  · rintro ⟨target, place, hjump, hplace, hlt, hbetween⟩
    obtain ⟨place, rfl⟩ : ∃ earlier, place = earlier + 1 := ⟨place - 1, by omega⟩
    exact ⟨target, place, hjump, hplace, by omega, fun between hlt hlt' => hbetween (between + 1) (by omega) (by omega)⟩
  · rintro ⟨target, place, hjump, hplace, hlt, hbetween⟩
    refine ⟨target, place + 1, hjump, hplace, by omega, fun between hlt hlt' => ?_⟩
    obtain ⟨between, rfl⟩ : ∃ earlier, between = earlier + 1 := ⟨between - 1, by omega⟩
    exact hbetween between (by omega) (by omega)

instance decidableJumpsAhead : (code : List Instr) → (index : Nat) → Decidable (JumpsAhead code index)
  | [], _ => isFalse nofun
  | _ :: _, 0 => decidable_of_iff _ jumpsAhead_zero.symm
  | _ :: rest, index + 1 =>
      have := decidableJumpsAhead rest index
      decidable_of_iff _ jumpsAhead_succ.symm

theorem not_jumpsAhead_of_isMarker (hinstr : code[index]? = some instr) (hmarker : instr.isMarker = true) :
    ¬ JumpsAhead code index := by
  rintro ⟨target, place, hjump, -⟩
  obtain rfl := Option.some.inj (hinstr.symm.trans hjump)
  cases hmarker

end Decisions

section Layout

/-- What becomes of each instruction. -/
def blocks (code : List Instr) : List (List Instr) :=
  code.zipIdx.map fun (instr, index) => if JumpsAhead code index then [] else [instr]

/-- The place of an instruction without the jumps before it that lead ahead. -/
def moved (code : List Instr) (index : Nat) : Nat :=
  blockStart (blocks code) index

theorem blocks_cons : blocks (instr :: rest) = (if isRedundant instr rest then [] else [instr]) :: blocks rest := by
  rw [blocks, List.zipIdx_cons', List.map_cons, List.map_map, blocks]
  simp only [jumpsAhead_zero, Function.comp_def, Prod.map_fst, Prod.map_snd, id, jumpsAhead_succ]

theorem remove_eq_flatten (code : List Instr) : remove code = (blocks code).flatten := by
  induction code with
  | nil => rfl
  | cons instr rest ih =>
      rw [remove, blocks_cons, List.flatten_cons, ih]
      split <;> rfl

theorem getElem?_blocks (hinstr : code[index]? = some instr) :
    (blocks code)[index]? = some (if JumpsAhead code index then [] else [instr]) := by
  simp [blocks, hinstr]

theorem keepsLabels_blocks (code : List Instr) : KeepsLabels code (blocks code) := by
  refine keepsLabels_of_getElem? (by simp [blocks]) fun index instr block hinstr hblock => ?_
  obtain rfl := Option.some.inj ((getElem?_blocks hinstr).symm.trans hblock)
  split
  · next hjumps =>
      obtain ⟨target, -, hjump, -⟩ := hjumps
      obtain rfl := Option.some.inj (hinstr.symm.trans hjump)
      exact .inr ⟨nofun, nofun⟩
  · cases instr with
    | label l => exact .inl ⟨l, rfl, rfl⟩
    | _ => exact .inr (by simp)

theorem moved_zero (code : List Instr) : moved code 0 = 0 :=
  blockStart_zero _

theorem moved_succ (hinstr : code[index]? = some instr) (hkept : ¬ JumpsAhead code index) :
    moved code (index + 1) = moved code index + 1 := by
  have hblock := getElem?_blocks hinstr
  rw [if_neg hkept] at hblock
  exact blockStart_succ hblock

theorem moved_succ_of_jumpsAhead (hjumps : JumpsAhead code index) : moved code (index + 1) = moved code index := by
  obtain ⟨target, -, hjump, -⟩ := id hjumps
  have hblock := getElem?_blocks hjump
  rw [if_pos hjumps] at hblock
  exact blockStart_succ hblock

/-- Every index after the jumps that go keeps its instruction, and the end stays the end. -/
theorem getElem?_moved (hkept : ¬ JumpsAhead code index) : (remove code)[moved code index]? = code[index]? := by
  rw [remove_eq_flatten, moved]
  cases hinstr : code[index]? with
  | none =>
      have hlength : (blocks code).length ≤ index := by
        rw [List.getElem?_eq_none_iff] at hinstr
        simpa [blocks] using hinstr
      rw [blockStart, List.take_of_length_le hlength, List.getElem?_eq_none (Nat.le_refl _)]
  | some instr =>
      have hblock := getElem?_blocks hinstr
      rw [if_neg hkept] at hblock
      exact getElem?_flatten_blockStart hblock Nat.zero_lt_one

theorem place?_remove (code : List Instr) (l : Label) :
    place? (labelPlaces (remove code)) l = (place? (labelPlaces code) l).map (moved code) := by
  rw [remove_eq_flatten]
  exact place?_flatten (keepsLabels_blocks code) l

/-- A handler range covers an instruction as before. -/
theorem covers_remove (block : TryBlock) (hinstr : code[index]? = some instr) (hkept : ¬ JumpsAhead code index) :
    block.Covers (remove code) (moved code index) ↔ block.Covers code index := by
  have hblock := getElem?_blocks hinstr
  rw [if_neg hkept] at hblock
  have hle : ∀ other, moved code other ≤ moved code index ↔ other ≤ index := fun other =>
    blockStart_le_iff hblock Nat.zero_lt_one other
  simp only [TryBlock.Covers, place?_remove, Option.map_eq_some_iff, ← Nat.not_le]
  constructor
  · rintro ⟨_, _, ⟨start, hstart, rfl⟩, ⟨stop, hstop, rfl⟩, hcovers⟩
    exact ⟨start, stop, hstart, hstop, (hle start).1 hcovers.1, fun h => hcovers.2 ((hle stop).2 h)⟩
  · rintro ⟨start, stop, hstart, hstop, hcovers⟩
    exact ⟨_, _, ⟨start, hstart, rfl⟩, ⟨stop, hstop, rfl⟩, (hle start).2 hcovers.1,
      fun h => hcovers.2 ((hle stop).1 h)⟩

end Layout

section Landings

variable {last : Nat}

/-- A jump ahead passes nothing but markers. -/
theorem exists_markers (hlabels : LabelsOnce code) (h : JumpsAhead code index) : ∃ target count,
    code[index]? = some (.jump Opcode.goto target) ∧
      place? (labelPlaces code) target = some (index + 1 + count) ∧
      ∀ offset, offset < count → ∃ marker, code[index + 1 + offset]? = some marker ∧ marker.isMarker = true := by
  obtain ⟨target, place, hjump, hplace, hlt, hbetween⟩ := h
  obtain ⟨count, rfl⟩ := Nat.exists_eq_add_of_le (show index + 1 ≤ place from hlt)
  refine ⟨target, count, hjump, hlabels.place?_eq_some_iff.2 hplace, fun offset hoffset => ?_⟩
  exact hbetween (index + 1 + offset) (by omega) (by omega)

theorem exists_arrives (hlabels : LabelsOnce code) (index : Nat) :
    ∃ last, Arrives code (JumpsAhead code) index last := by
  -- every step goes ahead, so the induction is on what is left of the code
  induction hleft : code.length - index using Nat.strongRecOn generalizing index with
  | _ left ih =>
      by_cases hjumps : JumpsAhead code index
      · obtain ⟨target, count, hjump, hplace, -⟩ := exists_markers hlabels hjumps
        have hlt := place?_labelPlaces_lt hplace
        obtain ⟨last, hlast⟩ := ih (code.length - (index + 1 + count)) (by omega) (index + 1 + count) rfl
        exact ⟨last, .jump hjumps hjump hplace hlast⟩
      · by_cases hmarker : ∃ marker, code[index]? = some marker ∧ marker.isMarker = true
        · obtain ⟨marker, hinstr, hmarker⟩ := hmarker
          have hlt := (List.getElem?_eq_some_iff.1 hinstr).1
          obtain ⟨last, hlast⟩ := ih (code.length - (index + 1)) (by omega) (index + 1) rfl
          exact ⟨last, .marker hinstr hmarker hlast⟩
        · refine ⟨index, .here (fun instr hinstr => ?_) hjumps⟩
          by_contra hnot
          exact hmarker ⟨instr, hinstr, by simpa using hnot⟩

theorem arrives_unique {passed : Nat → Prop} {last' : Nat} (h : Arrives code passed index last)
    (h' : Arrives code passed index last') : last = last' := by
  induction h with
  | here hreal hstays =>
      cases h' with
      | here => rfl
      | marker hinstr hmarker => cases (hreal _ hinstr).symm.trans hmarker
      | jump hpassed => exact absurd hpassed hstays
  | marker hinstr hmarker _ ih =>
      cases h' with
      | here hreal => cases (hreal _ hinstr).symm.trans hmarker
      | marker _ _ h' => exact ih h'
      | jump _ hjump =>
          obtain rfl := Option.some.inj (hinstr.symm.trans hjump)
          cases hmarker
  | jump hpassed hjump hplace _ ih =>
      cases h' with
      | here _ hstays => exact absurd hpassed hstays
      | marker hinstr hmarker =>
          obtain rfl := Option.some.inj (hinstr.symm.trans hjump)
          cases hmarker
      | jump _ hjump' hplace' h' =>
          cases hjump.symm.trans hjump'
          obtain rfl := Option.some.inj (hplace.symm.trans hplace')
          exact ih h'

/-- Markers stay, and are passed as before. -/
theorem arrives_of_markers (count : Nat)
    (hmarkers : ∀ offset, offset < count → ∃ marker, code[index + offset]? = some marker ∧ marker.isMarker = true)
    (h : Arrives (remove code) (fun _ => False) (moved code (index + count)) last) :
    Arrives (remove code) (fun _ => False) (moved code index) last := by
  induction count with
  | zero => exact h
  | succ count ih =>
      apply ih fun offset hoffset => hmarkers offset (by omega)
      obtain ⟨marker, hinstr, hmarker⟩ := hmarkers count (by omega)
      have hkept := not_jumpsAhead_of_isMarker hinstr hmarker
      apply Arrives.marker ((getElem?_moved hkept).trans hinstr) hmarker
      rwa [← moved_succ hinstr hkept]

/-- Execution comes to the same instruction without the jumps that lead ahead. -/
theorem arrives_moved (hlabels : LabelsOnce code) (h : Arrives code (JumpsAhead code) index last) :
    Arrives (remove code) (fun _ => False) (moved code index) (moved code last) ∧
      (remove code)[moved code last]? = code[last]? := by
  induction h with
  | here hreal hkept =>
      have hsame := getElem?_moved hkept
      exact ⟨.here (by rwa [hsame]) id, hsame⟩
  | marker hinstr hmarker _ ih =>
      have hkept := not_jumpsAhead_of_isMarker hinstr hmarker
      refine ⟨.marker ((getElem?_moved hkept).trans hinstr) hmarker ?_, ih.2⟩
      rw [← moved_succ hinstr hkept]
      exact ih.1
  | jump hjumps hjump hplace _ ih =>
      obtain ⟨target, count, hjump', hplace', hmarkers⟩ := exists_markers hlabels hjumps
      cases hjump.symm.trans hjump'
      obtain rfl := Option.some.inj (hplace.symm.trans hplace')
      rw [← moved_succ_of_jumpsAhead hjumps]
      exact ⟨arrives_of_markers count hmarkers ih.1, ih.2⟩

end Landings

section Runs

open Machine

variable {σ : Type} {w : World σ} {m : MethodDecl} {s : Store σ}

/-- The method without its redundant jumps. -/
def without (m : MethodDecl) : MethodDecl :=
  { m with code := remove m.code }

theorem exec_marker {instr : Instr} (h : instr.isMarker = true) : exec w instr s = .next s := by
  cases instr with
  | label | line => rfl
  | _ => cases h

/-- An instruction that stays does the same, and its exceptions have the same handlers. -/
theorem step_moved (s : Store σ) (hkept : ¬ JumpsAhead m.code index) :
    step w (without m) (.running (moved m.code index) s) = move (moved m.code) (step w m (.running index s)) := by
  cases hinstr : m.code[index]? with
  | none =>
      rw [step, step, without, getElem?_moved hkept, hinstr]
      rfl
  | some instr =>
      have hblock := getElem?_blocks hinstr
      rw [if_neg hkept] at hblock
      rw [without, remove_eq_flatten]
      exact step_flatten (keepsLabels_blocks m.code) hinstr hblock s

theorem run_of_markers (s : Store σ) (count : Nat)
    (hmarkers : ∀ offset, offset < count → ∃ marker, m.code[index + offset]? = some marker ∧ marker.isMarker = true) :
    run w (without m) count (.running (moved m.code index) s) = .running (moved m.code (index + count)) s := by
  induction count with
  | zero => rfl
  | succ count ih =>
      obtain ⟨marker, hinstr, hmarker⟩ := hmarkers count (by omega)
      have hkept := not_jumpsAhead_of_isMarker hinstr hmarker
      rw [run_add, ih fun offset hoffset => hmarkers offset (by omega)]
      show step w (without m) (.running (moved m.code (index + count)) s) = _
      rw [step_moved s hkept, step, hinstr]
      dsimp only
      rw [exec_marker hmarker]
      rfl

/-- The method without its redundant jumps keeps up with the method. -/
theorem keepsUp_without (hlabels : LabelsOnce m.code) :
    KeepsUp w m (without m) fun c c' => c' = move (moved m.code) c := by
  rintro c _ rfl
  cases c with
  | running pc s =>
      by_cases hjumps : JumpsAhead m.code pc
      · obtain ⟨target, count, hjump, hplace, hmarkers⟩ := exists_markers hlabels hjumps
        have hstep : step w m (.running pc s) = .running (pc + 1 + count) s := by
          rw [step, hjump]
          show proceed w m pc s.locals (.jump target s) = _
          rw [proceed, hplace]
        rw [hstep]
        refine ⟨count, ?_, ?_⟩
        · rw [move, ← moved_succ_of_jumpsAhead hjumps]
          exact run_of_markers s count hmarkers
        · rintro rfl pc' hpc
          rw [← Option.some.inj hpc]
          rfl
      · exact ⟨1, step_moved s hjumps, fun h => absurd h Nat.one_ne_zero⟩
  | _ => exact ⟨1, rfl, fun h => absurd h Nat.one_ne_zero⟩

/-- A method ends as it does without its redundant jumps, or never. -/
theorem ends_iff (hlabels : LabelsOnce m.code) (c ending : Config σ) (hended : ending.pc? = none) :
    (∃ steps, run w m steps c = ending) ↔ ∃ steps, run w (without m) steps (move (moved m.code) c) = ending := by
  have hkeeps := keepsUp_without (w := w) hlabels
  constructor
  · rintro ⟨steps, rfl⟩
    obtain ⟨count, hrun, -⟩ := hkeeps.run (c := c) rfl steps
    exact ⟨count, hrun.trans (move_of_ended hended)⟩
  · rintro ⟨steps, hsteps⟩
    have hlater : ∃ later, (run w m later c).pc? = none := by
      by_contra hforever
      push Not at hforever
      obtain ⟨later, count, hle, hrun⟩ := hkeeps.exists_ge (c := c) rfl hforever steps
      rw [run_of_le (hsteps ▸ hended) hle, hsteps] at hrun
      rw [hrun, pc?_move, Option.map_eq_none_iff] at hended
      exact hforever later hended
    obtain ⟨later, hlater⟩ := hlater
    obtain ⟨count, hrun, -⟩ := hkeeps.run (c := c) rfl later
    rw [move_of_ended hlater] at hrun
    refine ⟨later, ?_⟩
    rcases Nat.le_total steps count with hle | hle
    · rw [← hrun, run_of_le (hsteps ▸ hended) hle, hsteps]
    · rw [← hsteps, run_of_le (hrun ▸ hlater) hle, hrun]

end Runs

section Method

open Machine

/-- A method does without the jumps that lead ahead what another one does with them. -/
structure Skips (m m' : MethodDecl) : Prop where
  /-- Only the code changes. -/
  rest : m' = { m with code := m'.code }
  /-- The jumps that lead ahead go, and all other instructions stay in their order. -/
  code : m'.code = (blocks m.code).flatten
  /-- The first instruction is the first place. -/
  entry : moved m.code 0 = 0
  /-- What stays goes on to the new places of its successors, or lacks a label as before. -/
  successors : ∀ flow flow' : Flow, flow.places = labelPlaces m.code → flow'.places = labelPlaces m'.code →
    ∀ (index : Nat) (instr : Instr) (effect : Effect), m.code[index]? = some instr → ¬ JumpsAhead m.code index →
      flow'.successors (moved m.code index) instr effect =
        (flow.successors index instr effect).map (List.map (moved m.code))
  /-- From every place execution comes to one instruction or off the end, and to the same one as before. -/
  arrives : ∀ index, ∃ last, m'.code[moved m.code last]? = m.code[last]? ∧
    (∀ other, Arrives m.code (JumpsAhead m.code) index other ↔ other = last) ∧
    ∀ other, Arrives m'.code (fun _ => False) (moved m.code index) other ↔ other = moved m.code last
  /-- The same handler ranges cover what stays. -/
  covers : ∀ block ∈ m.tries, ∀ (index : Nat) (instr : Instr), m.code[index]? = some instr →
    ¬ JumpsAhead m.code index → (block.Covers m'.code (moved m.code index) ↔ block.Covers m.code index)
  /-- Whatever is outside the method, it ends as before, or never. -/
  ends : ∀ (σ : Type) (w : World σ) (s : Store σ) (ending : Config σ), ending.pc? = none →
    ((∃ steps, run w m steps (.running 0 s) = ending) ↔ ∃ steps, run w m' steps (.running 0 s) = ending)

/-- Without its redundant jumps a method does what it did with them. -/
theorem remove_skips {m : MethodDecl} (hlabels : LabelsOnce m.code) : Skips m { m with code := remove m.code } where
  rest := rfl
  code := remove_eq_flatten m.code
  entry := moved_zero m.code
  successors := by
    intro flow flow' hplaces hplaces' index instr effect hinstr hkept
    apply Flow.successors_map
    · rw [hplaces, hplaces']
      exact place?_remove m.code
    · exact moved_succ hinstr hkept
  arrives := by
    intro index
    obtain ⟨last, hlast⟩ := exists_arrives hlabels index
    obtain ⟨hmoved, hsame⟩ := arrives_moved hlabels hlast
    refine ⟨last, hsame, fun other => ⟨fun h => arrives_unique h hlast, ?_⟩,
      fun other => ⟨fun h => arrives_unique h hmoved, ?_⟩⟩
    · rintro rfl
      exact hlast
    · rintro rfl
      exact hmoved
  covers := fun block _ _ _ => covers_remove block
  ends := by
    intro σ w s ending hended
    rw [ends_iff hlabels (.running 0 s) ending hended, move, moved_zero]
    rfl

/-- The second and the third jump lead ahead, the second one over where a handler range ends and another jump comes in.
The first one leads over instructions, and stays. -/
def threaded : MethodDecl where
  name := "m"
  descriptor := "(I)V"
  code := [.label ⟨0⟩, .jump Opcode.goto ⟨3⟩, .jump Opcode.goto ⟨1⟩, .line 4, .label ⟨2⟩, .label ⟨1⟩,
    .jump Opcode.goto ⟨3⟩, .label ⟨3⟩, .var Opcode.iload 1, .jump Opcode.ifeq ⟨2⟩, .simple Opcode.vreturn]
  tries := [⟨⟨0⟩, ⟨2⟩, ⟨3⟩, none⟩]

theorem threaded_skips : LabelsOnce threaded.code ∧
    remove threaded.code = [.label ⟨0⟩, .jump Opcode.goto ⟨3⟩, .line 4, .label ⟨2⟩, .label ⟨1⟩, .label ⟨3⟩,
      .var Opcode.iload 1, .jump Opcode.ifeq ⟨2⟩, .simple Opcode.vreturn] ∧
    Skips threaded { threaded with code := remove threaded.code } := by
  have hlabels : LabelsOnce threaded.code := by decide
  exact ⟨hlabels, by decide, remove_skips hlabels⟩

end Method

end RedundantGoto

end Unscramble
