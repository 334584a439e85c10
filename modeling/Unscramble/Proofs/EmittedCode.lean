/-
The layout of a body is exact.  Sizes are computed while the constant pool grows and the bytes are written when it has
grown further, but an entry keeps its index, so what was asked for once gives the same answer later.  Hence every
instruction is written in as many bytes as were counted for it, it starts at the offset it was given, and its distances
lead from there to the offsets of its labels.
-/
import Unscramble.Proofs.Reencoding

namespace Unscramble.ClassFile

open PoolBuilder

section Lasting

variable {α β : Type} {x : Encoder α} {f : α → Encoder β}

/-- What the computation gives, it gives again in every pool that grows out of the one it leaves, and then leaves that
pool as it is. -/
def Lasts (x : Encoder α) : Prop :=
  ∀ b a b', x.run b = .ok (a, b') → b.Extends b' ∧ ∀ final, b'.Extends final → x.run final = .ok (a, final)

namespace Lasts

theorem pure (a : α) : Lasts (Pure.pure a) := by
  intro b a' b' hrun
  cases hrun
  exact ⟨Extends.refl b, fun _ _ => rfl⟩

theorem throw (fault : EncodeFault) : Lasts (MonadExcept.throw fault : Encoder α) := by
  intro b a b' hrun
  cases hrun

theorem bind (h : Lasts x) (hnext : ∀ a, Lasts (f a)) : Lasts (x >>= f) := by
  intro b r b'' hrun
  rw [StateT.run_bind] at hrun
  obtain ⟨⟨a, b'⟩, hx, hf⟩ := bind_eq_ok.1 hrun
  obtain ⟨hgrows, hagain⟩ := h b a b' hx
  obtain ⟨hgrows', hagain'⟩ := hnext a b' r b'' hf
  refine ⟨hgrows.trans hgrows', fun final hfinal => ?_⟩
  exact run_bind (hagain final (hgrows'.trans hfinal)) (hagain' final hfinal)

theorem lift (result : Except EncodeFault α) : Lasts (liftM result) := by
  cases result with
  | error fault => exact throw fault
  | ok a => exact pure a

theorem mapM (h : ∀ a, Lasts (f a)) (items : List α) : Lasts (items.mapM f) := by
  induction items with
  | nil => exact pure []
  | cons a rest ih =>
      rw [List.mapM_cons]
      exact (h a).bind fun _ => ih.bind fun _ => pure _

end Lasts

theorem lasts_intern (e : PoolEntry) : Lasts (intern e) := by
  intro b i b' hrun
  cases h : b.indexes[e]? with
  | some index =>
      rw [intern_of_some h] at hrun
      cases hrun
      exact ⟨Extends.refl b, fun final hfinal => intern_of_some (hfinal e i h)⟩
  | none =>
      rw [intern_of_none h] at hrun
      split at hrun
      · cases hrun
      · cases hrun
        refine ⟨extends_add h, fun final hfinal => intern_of_some (hfinal e b.next ?_)⟩
        exact Std.HashMap.getElem?_insert_self

theorem lasts_classRef (name : String) : Lasts (classRef name) :=
  (lasts_intern _).bind fun _ => lasts_intern _

theorem lasts_member (kind : MemberKind) (ref : MemberRef) : Lasts (member kind ref) := by
  refine (lasts_classRef ref.owner).bind fun _ => ?_
  refine (lasts_intern _).bind fun _ => ?_
  refine (lasts_intern _).bind fun _ => ?_
  exact (lasts_intern _).bind fun _ => lasts_intern _

theorem lasts_loadable (value : Constant) : Lasts (loadable value) := by
  cases value with
  | string text => exact (lasts_intern _).bind fun _ => lasts_intern _
  | classRef name => exact lasts_classRef name
  | _ => exact lasts_intern _

end Lasting

namespace Code

variable {offsets : List (Label × Nat)} {offset : Nat} {i : Instr} {code : List Instr} {sizes : List Nat}
variable {placed : List (Instr × Nat)} {size : Nat} {b b' b'' : PoolBuilder} {block : Bytes} {blocks : List Bytes}

section Sizes

/-- The sizes of instructions in a row, each in the pool that the one before it left. -/
def sizesFrom : Nat → List Instr → Encoder (List Nat)
  | _, [] => pure []
  | offset, i :: rest => do
      let size ← encodedSize offset i
      let sizes ← sizesFrom (offset + size) rest
      pure (size :: sizes)

/-- Instructions with the offsets to which these sizes lead. -/
def placeFrom : Nat → List Instr → List Nat → List (Instr × Nat)
  | offset, i :: rest, size :: sizes => (i, offset) :: placeFrom (offset + size) rest sizes
  | _, _, _ => []

/-- The layout is settled by the sizes. -/
theorem layout_eq_sizesFrom (code : List Instr) :
    layout code = (do
      let sizes ← sizesFrom 0 code
      pure (placeFrom 0 code sizes, total sizes)) := by
  have hfrom : ∀ offset, layoutFrom offset code = (do
      let sizes ← sizesFrom offset code
      pure (placeFrom offset code sizes, offset + total sizes) : Encoder (List (Instr × Nat) × Nat)) := by
    induction code with
    | nil => simp [layoutFrom, sizesFrom, placeFrom]
    | cons i rest ih => simp [layoutFrom, sizesFrom, placeFrom, ih, Nat.add_assoc]
  rw [layout_eq, hfrom]
  simp only [Nat.zero_add]

theorem lasts_encodedSize (offset : Nat) (i : Instr) : Lasts (encodedSize offset i) := by
  cases i with
  | ldc value => exact (lasts_loadable value).bind fun _ => .pure _
  | _ => exact .pure _

theorem lasts_sizesFrom (offset : Nat) (code : List Instr) : Lasts (sizesFrom offset code) := by
  induction code generalizing offset with
  | nil => exact .pure []
  | cons i rest ih => exact (lasts_encodedSize offset i).bind fun size => (ih (offset + size)).bind fun _ => .pure _

/-- The sizes of instructions in a row in a pool that has all that they ask for. -/
inductive Measured (b : PoolBuilder) : Nat → List Instr → List Nat → Prop
  | nil {offset : Nat} : Measured b offset [] []
  | cons {offset size : Nat} {i : Instr} {rest : List Instr} {sizes : List Nat}
      (hsize : (encodedSize offset i).run b = .ok (size, b)) (hrest : Measured b (offset + size) rest sizes) :
      Measured b offset (i :: rest) (size :: sizes)

theorem Measured.mono (h : Measured b offset code sizes) (hgrows : b.Extends b') : Measured b' offset code sizes := by
  induction h with
  | nil => exact .nil
  | cons hsize _ ih => exact .cons ((lasts_encodedSize _ _ _ _ _ hsize).2 b' hgrows) ih

/-- The sizes that were computed one after another are those in the pool that is left in the end. -/
theorem measured_of_sizesFrom (h : (sizesFrom offset code).run b = .ok (sizes, b')) :
    Measured b' offset code sizes := by
  induction code generalizing offset sizes b with
  | nil =>
      cases h
      exact .nil
  | cons i rest ih =>
      rw [sizesFrom, StateT.run_bind] at h
      obtain ⟨⟨size, b₁⟩, hsize, h⟩ := bind_eq_ok.1 h
      rw [StateT.run_bind] at h
      obtain ⟨⟨later, b₂⟩, hrest, h⟩ := bind_eq_ok.1 h
      cases h
      have hgrows := (lasts_sizesFrom _ _ _ _ _ hrest).1
      exact .cons ((lasts_encodedSize _ _ _ _ _ hsize).2 _ hgrows) (ih hrest)

end Sizes

section Results

variable {α β : Type} {x : Encoder α} {f : α → Encoder β} {post : α → Prop} {post' : β → Prop}

/-- Whatever pool the computation starts from, what it gives has the property. -/
def Ensures (x : Encoder α) (post : α → Prop) : Prop :=
  ∀ b a b', x.run b = .ok (a, b') → post a

namespace Ensures

theorem pure {a : α} (h : post a) : Ensures (Pure.pure a) post := by
  intro b a' b' hrun
  cases hrun
  exact h

theorem any (x : Encoder α) : Ensures x fun _ => True :=
  fun _ _ _ _ => trivial

theorem throw {fault : EncodeFault} : Ensures (MonadExcept.throw fault) post := by
  intro b a b' hrun
  cases hrun

theorem throw_bind {fault : EncodeFault} : Ensures (MonadExcept.throw fault >>= f) post' := by
  intro b a b' hrun
  cases hrun

theorem bind (h : Ensures x post) (hnext : ∀ a, post a → Ensures (f a) post') : Ensures (x >>= f) post' := by
  intro b r b'' hrun
  rw [StateT.run_bind] at hrun
  obtain ⟨⟨a, b'⟩, hx, hf⟩ := bind_eq_ok.1 hrun
  exact hnext a (h b a b' hx) b' r b'' hf

theorem lift {result : Except EncodeFault α} (h : ∀ a, result = .ok a → post a) : Ensures (liftM result) post := by
  cases result with
  | error fault => exact throw
  | ok a => exact pure (h a rfl)

theorem mapM {rel : α → β → Prop} (h : ∀ a, Ensures (f a) (rel a)) (items : List α) :
    Ensures (items.mapM f) (List.Forall₂ rel items) := by
  induction items with
  | nil => exact pure .nil
  | cons a rest ih =>
      rw [List.mapM_cons]
      refine (h a).bind fun first hfirst => ?_
      exact ih.bind fun others hothers => pure (.cons hfirst hothers)

end Ensures

end Results

section Distances

/-- The distance leads from the offset to that of the label. -/
def Spans (offsets : List (Label × Nat)) (offset : Nat) (label : Label) (distance : Int) : Prop :=
  ∃ target, offsetOf offsets label = .ok target ∧ (offset : Int) + distance = target

theorem Leads.spans {label : Label} {distance : Int} (h : Leads offsets offset label distance) :
    Spans offsets offset label distance := by
  obtain ⟨target, hlookup, htarget⟩ := h
  refine ⟨target, by rw [offsetOf, hlookup], ?_⟩
  unfold targetOf at htarget
  split at htarget
  · cases htarget
  · obtain rfl := Except.ok.inj htarget
    omega

/-- The distances in the bytes of an instruction lead from its offset to the labels that it names.  A branch has one
distance of two bytes; a switch has its distances of four bytes behind its filler. -/
def Aims (offsets : List (Label × Nat)) (offset : Nat) : Instr → Bytes → Prop
  | .jump op target, block => ∃ d : Int16, block = op :: u16Bytes d.toUInt16 ∧ Spans offsets offset target d.toInt
  | .tableSwitch low high fallback targets, block => ∃ (d : Int32) (ds : List Int32),
      block = switchHead offset Opcode.tableSwitch ++ wordsOf (d :: low :: high :: ds) ∧
        Spans offsets offset fallback d.toInt ∧
        List.Forall₂ (fun target d => Spans offsets offset target d.toInt) targets ds
  | .lookupSwitch fallback keys targets, block => ∃ (d : Int32) (ds : List Int32),
      block = switchHead offset Opcode.lookupSwitch ++ u32Bytes d.toUInt32 ++ u32Bytes (UInt32.ofNat keys.length) ++
          wordsOf (interleave (keys.zip ds)) ∧
        Spans offsets offset fallback d.toInt ∧
        List.Forall₂ (fun target d => Spans offsets offset target d.toInt) targets ds
  | _, _ => True

/-- Whether a lookup switch has as many targets as keys. -/
def isPaired : Instr → Bool
  | .lookupSwitch _ keys targets => targets.length == keys.length
  | _ => true

theorem ensures_longDistance (label : Label) : Ensures (liftM (longDistance offsets offset label))
    (fun block => ∃ d : Int32, block = u32Bytes d.toUInt32 ∧ Leads offsets offset label d.toInt) :=
  .lift fun _ => longDistance_leads

/-- Every distance that is written is exact. -/
theorem ensures_encodeInstr (h : isPaired i = true) :
    Ensures (encodeInstr offsets offset i) (Aims offsets offset i) := by
  cases i with
  | jump op target =>
      refine (Ensures.lift fun _ => shortDistance_leads).bind ?_
      rintro _ ⟨d, rfl, hleads⟩
      exact .pure ⟨d, rfl, hleads.spans⟩
  | tableSwitch low high fallback targets =>
      refine (ensures_longDistance fallback).bind ?_
      rintro _ ⟨d, rfl, hleads⟩
      refine (Ensures.mapM ensures_longDistance targets).bind fun cases hcases => ?_
      obtain ⟨ds, hds, htargets⟩ := exists_distances hcases
      refine .pure ⟨d, ds, ?_, hleads.spans, htargets.imp fun _ _ => Leads.spans⟩
      rw [hds]
      simp [switchHead, wordsOf]
  | lookupSwitch fallback keys targets =>
      refine (ensures_longDistance fallback).bind ?_
      rintro _ ⟨d, rfl, hleads⟩
      refine (@Ensures.mapM _ _ _ (fun (pair : Int32 × Label) block => ∃ d : Int32,
        block = u32Bytes pair.1.toUInt32 ++ u32Bytes d.toUInt32 ∧ Leads offsets offset pair.2 d.toInt) ?_ _).bind
          fun cases hcases => ?_
      · rintro ⟨key, target⟩
        refine (ensures_longDistance target).bind ?_
        rintro _ ⟨d, rfl, hleads⟩
        exact .pure ⟨d, rfl, hleads⟩
      · obtain ⟨ds, hds, htargets⟩ := exists_paired_distances (eq_of_beq h) hcases
        refine .pure ⟨d, ds, ?_, hleads.spans, htargets.imp fun _ _ => Leads.spans⟩
        rw [hds]
        rfl
  | _ => exact Ensures.any _

end Distances

section Emission

theorem lasts_encodeInstr (offsets : List (Label × Nat)) (offset : Nat) (i : Instr) :
    Lasts (encodeInstr offsets offset i) := by
  cases i with
  | ldc value => exact (lasts_loadable value).bind fun _ => .pure _
  | type op name => exact (lasts_classRef name).bind fun _ => .pure _
  | field op ref => exact (lasts_member .field ref).bind fun _ => .pure _
  | method op ref onInterface =>
      refine (lasts_member _ ref).bind fun _ => ?_
      dsimp only
      split
      · split
        · exact (Lasts.throw _).bind fun _ => .pure _
        · split
          · exact (Lasts.throw _).bind fun _ => .pure _
          · exact .pure _
      · exact .pure _
  | jump op target => exact (Lasts.lift _).bind fun _ => .pure _
  | tableSwitch low high fallback targets =>
      refine (Lasts.lift _).bind fun _ => ?_
      exact (Lasts.mapM (fun _ => .lift _) targets).bind fun _ => .pure _
  | lookupSwitch fallback keys targets =>
      refine (Lasts.lift _).bind fun _ => ?_
      exact (Lasts.mapM (fun _ => (Lasts.lift _).bind fun _ => .pure _) _).bind fun _ => .pure _
  | multiNewArray descriptor dims => exact (lasts_classRef descriptor).bind fun _ => .pure _
  | _ => exact .pure _

/-- A call takes two more bytes if it is one on an interface. -/
theorem ensures_call (op : Opcode) (ref : MemberRef) (onInterface : Bool) :
    Ensures (encodeInstr offsets offset (.method op ref onInterface))
      (fun block => block.length = if op == Opcode.invokeInterface then 5 else 3) := by
  refine (Ensures.any _).bind fun index _ => ?_
  dsimp only
  split
  · split
    · exact .throw_bind
    · split
      · exact .throw_bind
      · exact .pure rfl
  · exact .pure rfl

/-- An instruction is written in as many bytes as are counted for it in the same pool. -/
theorem length_encodeInstr (hpaired : isPaired i = true) (hsize : (encodedSize offset i).run b = .ok (size, b'))
    (h : (encodeInstr offsets offset i).run b = .ok (block, b'')) : block.length = size := by
  have haims := ensures_encodeInstr hpaired _ _ _ h
  cases i with
  | ldc value =>
      rw [encodedSize, StateT.run_bind] at hsize
      rw [encodeInstr, StateT.run_bind] at h
      obtain ⟨⟨index, b₁⟩, hindex, hsize⟩ := bind_eq_ok.1 hsize
      obtain ⟨⟨index', b₂⟩, hindex', h⟩ := bind_eq_ok.1 h
      obtain ⟨rfl, rfl⟩ := Prod.mk.inj (Except.ok.inj (hindex.symm.trans hindex'))
      cases hsize
      cases h
      by_cases hwide : value.isWide = true
      · simp [hwide, isLongLoad]
      · by_cases hlong : 255 < index
        · simp [hwide, hlong, isLongLoad]
        · simp [hwide, hlong, isLongLoad]
  | type | field | multiNewArray =>
      rw [encodeInstr, StateT.run_bind] at h
      obtain ⟨⟨index, b₁⟩, -, h⟩ := bind_eq_ok.1 h
      cases hsize
      cases h
      rfl
  | method op ref onInterface =>
      cases hsize
      exact ensures_call op ref onInterface _ _ _ h
  | jump op target =>
      obtain ⟨d, rfl, -⟩ := haims
      cases hsize
      rfl
  | tableSwitch low high fallback targets =>
      obtain ⟨d, ds, rfl, -, htargets⟩ := haims
      cases hsize
      have hcount := htargets.length_eq
      simp [length_switchHead, hcount]
      omega
  | lookupSwitch fallback keys targets =>
      obtain ⟨d, ds, rfl, -, htargets⟩ := haims
      cases hsize
      have hcount := htargets.length_eq
      have hkeys : targets.length = keys.length := eq_of_beq hpaired
      simp [length_switchHead, interleave]
      omega
  | var op index =>
      cases hsize
      cases h
      split
      · rfl
      · split <;> rfl
  | int | iinc =>
      cases hsize
      cases h
      split <;> rfl
  | _ =>
      cases hsize
      cases h
      rfl

end Emission

section Bodies

variable {index : Nat}

theorem Measured.map_fst (h : Measured b offset code sizes) : (placeFrom offset code sizes).map Prod.fst = code := by
  induction h with
  | nil => rfl
  | cons _ _ ih => rw [placeFrom, List.map_cons, ih]

/-- Instructions are written one after another, each in as many bytes as were counted for it. -/
theorem Measured.emits (h : Measured b offset code sizes) (hpaired : ∀ i ∈ code, isPaired i = true)
    (hrun : ((placeFrom offset code sizes).mapM fun (i, offset) => encodeInstr offsets offset i).run b =
      .ok (blocks, b')) :
    blocks.map List.length = sizes ∧
      List.Forall₂ (fun (i, offset) block => Aims offsets offset i block) (placeFrom offset code sizes) blocks := by
  induction code generalizing offset sizes b blocks with
  | nil =>
      cases h
      cases hrun
      exact ⟨rfl, .nil⟩
  | cons i rest ih =>
      obtain _ | ⟨hsize, hrest⟩ := h
      obtain ⟨hfirst, hlater⟩ := List.forall_mem_cons.1 hpaired
      rw [placeFrom, List.mapM_cons, StateT.run_bind] at hrun
      obtain ⟨⟨block, b₁⟩, hblock, hrun⟩ := bind_eq_ok.1 hrun
      rw [StateT.run_bind] at hrun
      obtain ⟨⟨others, b₂⟩, hothers, hrun⟩ := bind_eq_ok.1 hrun
      cases hrun
      -- the pool has grown by what this instruction asked for, and the later sizes are the same in it
      have hgrows := (lasts_encodeInstr _ _ _ _ _ _ hblock).1
      obtain ⟨hlengths, haims⟩ := ih (hrest.mono hgrows) hlater hothers
      refine ⟨?_, .cons (ensures_encodeInstr hfirst _ _ _ hblock) haims⟩
      rw [List.map_cons, hlengths, length_encodeInstr hfirst hsize hblock]

/-- The bytes before an instruction end at its offset. -/
theorem length_take_flatten (hsizes : blocks.map List.length = sizes) {start : Nat}
    (h : (placeFrom start code sizes)[index]? = some (i, offset)) :
    start + (blocks.take index).flatten.length = offset := by
  induction code generalizing blocks sizes start index with
  | nil => cases h
  | cons first rest ih =>
      cases blocks with
      | nil =>
          subst hsizes
          cases h
      | cons block blocks =>
          subst hsizes
          cases index with
          | zero =>
              obtain ⟨-, rfl⟩ := Prod.mk.inj (Option.some.inj h)
              rfl
          | succ index =>
              have hlater := ih rfl h
              rw [List.take_succ_cons, List.flatten_cons, List.length_append, ← Nat.add_assoc]
              exact hlater

theorem length_flatten_eq_total (blocks : List Bytes) : blocks.flatten.length = total (blocks.map List.length) := by
  induction blocks with
  | nil => rfl
  | cons block rest ih => rw [List.flatten_cons, List.length_append, ih, List.map_cons, total_cons]

/-- Faults are wrapped, but what is written is the same. -/
theorem run_unwrapped {placed : List (Instr × Nat)} {start : Nat}
    (h : ((placed.zipIdx start).mapM fun ((i, offset), index) =>
      fun b => (encodeInstr offsets offset i b).mapError (.instr index i) : Encoder (List Bytes)).run b =
        .ok (blocks, b')) :
    (placed.mapM fun (i, offset) => encodeInstr offsets offset i).run b = .ok (blocks, b') := by
  induction placed generalizing start b blocks with
  | nil => exact h
  | cons first rest ih =>
      rw [List.zipIdx_cons, List.mapM_cons, StateT.run_bind] at h
      obtain ⟨⟨block, b₁⟩, hblock, h⟩ := bind_eq_ok.1 h
      rw [StateT.run_bind] at h
      obtain ⟨⟨others, b₂⟩, hothers, h⟩ := bind_eq_ok.1 h
      cases h
      exact run_mapM_cons (mapError_eq_ok.1 hblock) (ih hothers)

/-- What follows the code of a body is written behind it. -/
theorem ensures_tables (front : Bytes) (offsets : List (Label × Nat)) (tries : List TryBlock) (lines : List Bytes) :
    Ensures (do
      let handlers := (← tries.mapM (encodeTry offsets)).filterMap id
      let handlerCount ← countBytes "exception handlers" handlers.length
      let tables ←
        if lines.isEmpty then pure (u16Bytes 0)
        else do
          let name ← utf8 "LineNumberTable"
          let count ← countBytes "line numbers" lines.length
          pure (u16Bytes 1 ++ (← attributeBytes name (count ++ lines.flatten)))
      pure (front ++ handlerCount ++ handlers.flatten ++ tables) : Encoder Bytes)
      (fun body => ∃ tables, body = front ++ tables) := by
  refine (Ensures.any _).bind fun handlers _ => ?_
  dsimp only
  refine (Ensures.any _).bind fun handlerCount _ => ?_
  split
  · exact (Ensures.any _).bind fun tables _ => .pure ⟨_, by rw [List.append_assoc, List.append_assoc]⟩
  · refine (Ensures.any _).bind fun name _ => ?_
    refine (Ensures.any _).bind fun count _ => ?_
    refine (Ensures.any _).bind fun lineTable _ => ?_
    exact (Ensures.any _).bind fun tables _ => .pure ⟨_, by rw [List.append_assoc, List.append_assoc]⟩

/-- A body is written as it was laid out, whatever constant pool it adds to, as long as its lookup switches have as many
targets as keys.  Every instruction takes as many bytes as were counted for it, so the code has the length that is
written in front of it, every instruction starts at its offset, and the distances in it lead from there to the offsets
at which their labels stand. -/
theorem encode_emits_layout {m : MethodDecl} {body : Bytes} (hpaired : ∀ i ∈ m.code, isPaired i = true)
    (hrun : (encode m).run b = .ok (body, b')) :
    ∃ (sizes : List Nat) (placed : List (Instr × Nat)) (sized emitted : PoolBuilder) (blocks : List Bytes)
      (tables : Bytes),
      (sizesFrom 0 m.code).run b = .ok (sizes, sized) ∧
      (layout m.code).run b = .ok ((placed, total sizes), sized) ∧ placed.map Prod.fst = m.code ∧
      (placed.mapM fun (i, offset) => encodeInstr (labelOffsets placed) offset i).run sized = .ok (blocks, emitted) ∧
      body = u16Bytes m.maxStack ++ u16Bytes m.maxLocals ++ u32Bytes (UInt32.ofNat (total sizes)) ++ blocks.flatten ++
        tables ∧
      blocks.map List.length = sizes ∧ blocks.flatten.length = total sizes ∧ total sizes ≤ 65535 ∧
      (∀ index i offset, placed[index]? = some (i, offset) → (blocks.take index).flatten.length = offset) ∧
      List.Forall₂ (fun (i, offset) block => Aims (labelOffsets placed) offset i block) placed blocks ∧
      ∀ label offset, offsetOf (labelOffsets placed) label = .ok offset → (.label label, offset) ∈ placed := by
  rw [encode, StateT.run_bind] at hrun
  obtain ⟨⟨⟨placed, length⟩, sized⟩, hlayout, hrun⟩ := bind_eq_ok.1 hrun
  have hlaid := hlayout
  rw [layout_eq_sizesFrom, StateT.run_bind] at hlaid
  obtain ⟨⟨sizes, sized'⟩, hsizes, hplaced⟩ := bind_eq_ok.1 hlaid
  cases hplaced
  dsimp only at hrun
  split at hrun
  · cases hrun
  · next hlength =>
      rw [StateT.run_bind] at hrun
      obtain ⟨⟨blocks, emitted⟩, hblocks, hrun⟩ := bind_eq_ok.1 hrun
      have hemits := run_unwrapped hblocks
      have hmeasured := measured_of_sizesFrom hsizes
      obtain ⟨hlengths, haims⟩ := hmeasured.emits hpaired hemits
      have htotal : blocks.flatten.length = total sizes := by rw [length_flatten_eq_total, hlengths]
      obtain ⟨tables, rfl⟩ := ensures_tables _ _ _ _ _ _ _ hrun
      refine ⟨sizes, _, _, _, blocks, tables, hsizes, hlayout, hmeasured.map_fst, hemits, rfl, hlengths, htotal,
        by omega, ?_, haims, ?_⟩
      · intro index i offset hplace
        rw [← length_take_flatten hlengths hplace, Nat.zero_add]
      · intro label offset hlabel
        exact mem_of_labelOffsets (offsetOf_eq_ok hlabel)

/-- A constant, and a switch back to it and on to a jump. -/
def switching : MethodDecl where
  name := "s"
  descriptor := "()V"
  code := [.label ⟨0⟩, .ldc (.int 100000), .lookupSwitch ⟨1⟩ [-1, 7] [⟨0⟩, ⟨1⟩], .label ⟨1⟩, .jump Opcode.goto ⟨0⟩]
  maxStack := 1

def switchingBytes : Bytes :=
  [0, 1, 0, 0, 0, 0, 0, 31, 18, 1, 171, 0, 0, 0, 0, 26, 0, 0, 0, 2, 255, 255, 255, 255, 255, 255, 255, 254, 0, 0, 0, 7,
    0, 0, 0, 26, 167, 255, 228, 0, 0, 0, 0]

theorem run_switching : (encode switching).run (poolOf []) = .ok (switchingBytes, poolOf [.integer 100000]) := by
  have hfirst : (loadable (.int 100000)).run (poolOf []) = .ok (1, poolOf [.integer 100000]) :=
    run_intern_new (by decide) (by decide)
  have hagain : (loadable (.int 100000)).run (poolOf [.integer 100000]) = .ok (1, poolOf [.integer 100000]) :=
    run_intern_old [] (by decide)
  have hsizes : (sizesFrom 0 switching.code).run (poolOf []) = .ok ([0, 2, 26, 0, 3], poolOf [.integer 100000]) :=
    run_bind rfl (run_bind (run_bind (run_bind hfirst rfl) rfl) rfl)
  have hlayout : (layout switching.code).run (poolOf []) =
      .ok ((placeFrom 0 switching.code [0, 2, 26, 0, 3], 31), poolOf [.integer 100000]) := by
    rw [layout_eq_sizesFrom]
    exact run_bind hsizes rfl
  rw [encode]
  refine run_bind hlayout ?_
  refine run_bind (a := [[], [18, 1], [171, 0, 0, 0, 0, 26, 0, 0, 0, 2, 255, 255, 255, 255, 255, 255, 255, 254, 0, 0,
    0, 7, 0, 0, 0, 26], [], [167, 255, 228]]) ?_ rfl
  exact run_mapM_cons rfl (run_mapM_cons (run_mapError (run_bind hagain rfl)) rfl)

/-- The body of the method takes 31 bytes, and the distances lead forwards to 28 and backwards to 0. -/
theorem switching_emits_layout : (∀ i ∈ switching.code, isPaired i = true) ∧
    (encode switching).run (poolOf []) = .ok (switchingBytes, poolOf [.integer 100000]) ∧
    ∃ (sizes : List Nat) (placed : List (Instr × Nat)) (blocks : List Bytes) (tables : Bytes),
      placed.map Prod.fst = switching.code ∧ total sizes ≤ 65535 ∧
      switchingBytes = u16Bytes 1 ++ u16Bytes 0 ++ u32Bytes (UInt32.ofNat (total sizes)) ++ blocks.flatten ++ tables ∧
      blocks.map List.length = sizes ∧
      List.Forall₂ (fun (i, offset) block => Aims (labelOffsets placed) offset i block) placed blocks := by
  refine ⟨by decide, run_switching, ?_⟩
  obtain ⟨sizes, placed, _, _, blocks, tables, -, -, hplaced, -, hbody, hlengths, -, hbound, -, haims, -⟩ :=
    encode_emits_layout (by decide) run_switching
  exact ⟨sizes, placed, blocks, tables, hplaced, hbound, hbody, hlengths, haims⟩

end Bodies

end Code

end Unscramble.ClassFile
