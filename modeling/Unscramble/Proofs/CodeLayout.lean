/-
The bytes of a body in a row.  Every instruction stands where those before it end, so the offsets of the
instructions ascend, a marker stands at the offset of the instruction behind it or at the end, and the reader cuts
the bytes at these offsets.
-/
import Unscramble.Proofs.SwitchReading

namespace Unscramble.ClassFile.Code

open PoolBuilder

variable {b : PoolBuilder} {offsets : List (Label × Nat)} {offset stop : Nat} {i : Instr}

section Writing

/-- The bytes for an instruction or a marker, which has none. -/
inductive Renders (b : PoolBuilder) (offsets : List (Label × Nat)) (offset : Nat) : Instr → Bytes → Prop
  | marker {i : Instr} (hmarker : i.isMarker = true) : Renders b offsets offset i []
  | instr {i : Instr} {block : Bytes} (hreal : i.isMarker = false) (hstores : Stores b offsets offset i block) :
      Renders b offsets offset i block

theorem Renders.size {block : Bytes} (h : Renders b offsets offset i block) :
    (encodedSize offset i).run b = .ok (block.length, b) := by
  cases h with
  | marker hmarker => cases i <;> first | rfl | cases hmarker
  | instr _ hstores =>
      obtain ⟨op, operands, rfl, hreads⟩ := hstores
      exact hreads.size

theorem encodes_int {op : Opcode} {operand : Int32} (h : isConsistent (.int op operand) = true) :
    Encodes (encodeInstr offsets offset (.int op operand))
      (fun b block => Stores b offsets offset (.int op operand) block) := by
  simp only [isConsistent, Bool.or_eq_true, Bool.and_eq_true, beq_iff_eq, decide_eq_true_eq] at h
  refine Encodes.pure fun b _ => ?_
  rcases h with (⟨⟨rfl, hlow⟩, hhigh⟩ | ⟨⟨rfl, hlow⟩, hhigh⟩) | ⟨⟨rfl, hlow⟩, hhigh⟩
  · exact stores_bipush hlow hhigh
  · exact stores_sipush hlow hhigh
  · exact stores_newArray hlow hhigh

theorem encodes_ldc (value : Constant) :
    Encodes (encodeInstr offsets offset (.ldc value)) (fun b block => Stores b offsets offset (.ldc value) block) := by
  refine (encodes_loadable value).bind fun index => Encodes.pure ?_
  rintro b - ⟨hconstant, hagain⟩
  split
  · next hwide => exact stores_longLoad (.inr rfl) (by simp [isLongLoad, hwide]) hconstant hagain
  · next hwide =>
      rw [Bool.not_eq_true] at hwide
      split
      · next hindex => exact stores_longLoad (.inl rfl) (by simp [isLongLoad, hindex]) hconstant hagain
      · next hindex => exact stores_ldc hwide (UInt16.not_lt.1 hindex) hconstant hagain

theorem encodes_var {op : Opcode} (h : isVar op = true) (index : UInt16) :
    Encodes (encodeInstr offsets offset (.var op index))
      (fun b block => Stores b offsets offset (.var op index) block) := by
  refine Encodes.pure fun b _ => ?_
  split
  · next hindex => exact stores_shortVar h hindex
  · next hlow =>
      split
      · next hhigh => exact stores_var h hlow hhigh
      · next hhigh => exact stores_wideVar h hhigh

theorem encodes_iinc (index : UInt16) (delta : Int16) :
    Encodes (encodeInstr offsets offset (.iinc index delta))
      (fun b block => Stores b offsets offset (.iinc index delta) block) := by
  refine Encodes.pure fun b _ => ?_
  split
  · next hwide => exact stores_wideIinc hwide
  · next hwide => exact stores_iinc (Bool.eq_false_of_not_eq_true hwide)

theorem encodes_method {op : Opcode} (h : op.between Opcode.invokeVirtual Opcode.invokeInterface = true)
    (ref : MemberRef) (onInterface : Bool) :
    Encodes (encodeInstr offsets offset (.method op ref onInterface))
      (fun b block => Stores b offsets offset (.method op ref onInterface) block) := by
  have hkind : ((if onInterface then MemberKind.interfaceMethod else .method) == .interfaceMethod) = onInterface := by
    cases onInterface <;> rfl
  refine (encodes_member _ ref).bind fun index => ?_
  have hcall : ∀ arguments : Bytes, (arguments.length = if op == Opcode.invokeInterface then 2 else 0) →
      Encodes (pure (op :: u16Bytes index ++ arguments)) (fun b block =>
        b.table.memberRef index = .ok (ref, (if onInterface then MemberKind.interfaceMethod else .method) ==
          .interfaceMethod) → Stores b offsets offset (.method op ref onInterface) block) := by
    intro arguments harguments
    rw [hkind]
    exact Encodes.pure fun b _ href => stores_method h harguments href
  split
  · next hop =>
      split
      · exact Encodes.throw_bind
      · split
        · exact Encodes.throw_bind
        · exact hcall _ (by rw [if_pos hop]; rfl)
  · next hop => exact hcall [] (by rw [if_neg hop]; rfl)

theorem encodes_longDistance (label : Label) :
    Encodes (liftM (longDistance offsets offset label))
      (fun _ block => ∃ d : Int32, block = u32Bytes d.toUInt32 ∧ Leads offsets offset label d.toInt) :=
  (encodes_lift _).mono fun _ _ _ => longDistance_leads

/-- The distances that the cases of a table stand for. -/
theorem exists_distances {targets : List Label} {cases : List Bytes}
    (h : List.Forall₂ (fun label block => ∃ d : Int32, block = u32Bytes d.toUInt32 ∧
      Leads offsets offset label d.toInt) targets cases) :
    ∃ ds, cases.flatten = wordsOf ds ∧
      List.Forall₂ (fun label (d : Int32) => Leads offsets offset label d.toInt) targets ds := by
  induction h with
  | nil => exact ⟨[], rfl, .nil⟩
  | cons hfirst _ ih =>
      obtain ⟨d, rfl, hleads⟩ := hfirst
      obtain ⟨ds, hds, hrest⟩ := ih
      refine ⟨d :: ds, ?_, .cons hleads hrest⟩
      rw [List.flatten_cons, hds, wordsOf_cons]

/-- The distances in the pairs of a table, if it has as many targets as keys. -/
theorem exists_paired_distances {keys : List Int32} {targets : List Label} {cases : List Bytes}
    (hcount : targets.length = keys.length)
    (h : List.Forall₂ (fun (pair : Int32 × Label) block => ∃ d : Int32,
      block = u32Bytes pair.1.toUInt32 ++ u32Bytes d.toUInt32 ∧ Leads offsets offset pair.2 d.toInt)
      (keys.zip targets) cases) :
    ∃ ds, cases.flatten = wordsOf (interleave (keys.zip ds)) ∧
      List.Forall₂ (fun label (d : Int32) => Leads offsets offset label d.toInt) targets ds := by
  induction keys generalizing targets cases with
  | nil =>
      obtain rfl := List.length_eq_zero_iff.1 hcount
      cases h
      exact ⟨[], rfl, .nil⟩
  | cons key keys ih =>
      cases targets with
      | nil => cases hcount
      | cons target targets =>
          rw [List.zip_cons_cons] at h
          obtain ⟨block, blocks, ⟨d, rfl, hleads⟩, hblocks, rfl⟩ := List.forall₂_cons_left_iff.1 h
          obtain ⟨ds, hds, hrest⟩ := ih (Nat.succ.inj hcount) hblocks
          refine ⟨d :: ds, ?_, .cons hleads hrest⟩
          rw [List.flatten_cons, hds, List.append_assoc]
          rfl

theorem encodes_tableSwitch {low high : Int32} {fallback : Label} {targets : List Label}
    (hcount : (targets.length : Int) = high.toInt - low.toInt + 1) :
    Encodes (encodeInstr offsets offset (.tableSwitch low high fallback targets))
      (fun b block => targets.length ≤ 65535 →
        Stores b offsets offset (.tableSwitch low high fallback targets) block) := by
  refine (encodes_longDistance fallback).bind fun head => ?_
  refine (Encodes.mapM fun target _ => encodes_longDistance target).bind fun cases => ?_
  refine Encodes.pure ?_
  rintro b - hcases ⟨d, rfl, hleads⟩ hsmall
  obtain ⟨ds, hds, htargets⟩ := exists_distances hcases
  have hstores := @stores_tableSwitch b _ _ _ _ d ds low high hcount hsmall (.cons hleads htargets)
  rw [hds, List.append_assoc, List.append_assoc, List.append_assoc]
  exact hstores

theorem encodes_lookupSwitch {fallback : Label} {keys : List Int32} {targets : List Label}
    (hcount : targets.length = keys.length) :
    Encodes (encodeInstr offsets offset (.lookupSwitch fallback keys targets))
      (fun b block => targets.length ≤ 65535 →
        Stores b offsets offset (.lookupSwitch fallback keys targets) block) := by
  refine (encodes_longDistance fallback).bind fun head => ?_
  refine (@Encodes.mapM _ _ _ _ (fun _ (pair : Int32 × Label) block => ∃ d : Int32,
      block = u32Bytes pair.1.toUInt32 ++ u32Bytes d.toUInt32 ∧ Leads offsets offset pair.2 d.toInt)
    fun pair _ => ?_).bind fun cases => ?_
  · refine (encodes_longDistance pair.2).bind fun block => Encodes.pure ?_
    rintro b - ⟨d, rfl, hleads⟩
    exact ⟨d, rfl, hleads⟩
  · refine Encodes.pure ?_
    rintro b - hcases ⟨d, rfl, hleads⟩ hsmall
    obtain ⟨ds, hds, htargets⟩ := exists_paired_distances hcount hcases
    have hstores := @stores_lookupSwitch b _ _ _ _ d ds keys hcount (by omega) (.cons hleads htargets)
    rw [hds, List.append_assoc, List.append_assoc]
    exact hstores

/-- What is written for an instruction whose operands are those of its form; a switch must not have too many
cases to fit into a body. -/
theorem encodes_instr (offsets : List (Label × Nat)) (offset : Nat) (h : isConsistent i = true) :
    Encodes (encodeInstr offsets offset i)
      (fun b block => i.targets.length ≤ 65536 → Renders b offsets offset i block) := by
  cases i with
  | label _ | line _ => exact Encodes.pure fun _ _ _ => .marker rfl
  | simple op => exact Encodes.pure fun _ _ _ => .instr rfl (stores_simple h)
  | int op operand => exact (encodes_int h).mono fun _ _ _ hstores _ => .instr rfl hstores
  | ldc value => exact (encodes_ldc value).mono fun _ _ _ hstores _ => .instr rfl hstores
  | var op index => exact (encodes_var h index).mono fun _ _ _ hstores _ => .instr rfl hstores
  | iinc index delta => exact (encodes_iinc index delta).mono fun _ _ _ hstores _ => .instr rfl hstores
  | type op name =>
      refine (encodes_classRef name).bind fun index => Encodes.pure fun b _ hindex _ => ?_
      exact .instr rfl (stores_type h hindex.1)
  | field op ref =>
      refine (encodes_member .field ref).bind fun index => Encodes.pure fun b _ hindex _ => ?_
      exact .instr rfl (stores_field h hindex)
  | method op ref onInterface =>
      exact (encodes_method h ref onInterface).mono fun _ _ _ hstores _ => .instr rfl hstores
  | jump op target =>
      refine (encodes_lift _).bind fun block => Encodes.pure fun b _ hblock _ => ?_
      obtain ⟨d, rfl, hleads⟩ := shortDistance_leads hblock
      exact .instr rfl (stores_jump h hleads)
  | tableSwitch low high fallback targets =>
      refine (encodes_tableSwitch (eq_of_beq h)).mono fun b block _ hstores hsmall => .instr rfl (hstores ?_)
      have hcount : (targets ++ [fallback]).length ≤ 65536 := hsmall
      rw [List.length_append, List.length_singleton] at hcount
      omega
  | lookupSwitch fallback keys targets =>
      refine (encodes_lookupSwitch (eq_of_beq h)).mono fun b block _ hstores hsmall => .instr rfl (hstores ?_)
      have hcount : (targets ++ [fallback]).length ≤ 65536 := hsmall
      rw [List.length_append, List.length_singleton] at hcount
      omega
  | multiNewArray descriptor dims =>
      refine (encodes_classRef descriptor).bind fun index => Encodes.pure fun b _ hindex _ => ?_
      exact .instr rfl (stores_multiNewArray hindex.1)

theorem encodes_encodedSize (offset : Nat) (i : Instr) :
    Encodes (encodedSize offset i) (fun b size => (encodedSize offset i).run b = .ok (size, b)) := by
  cases i with
  | ldc value =>
      refine (encodes_loadable value).bind fun index => Encodes.pure ?_
      rintro b - ⟨-, hagain⟩
      rw [encodedSize, StateT.run_bind, hagain]
      rfl
  | _ => exact Encodes.pure fun _ _ => rfl

/-- Instructions at the offsets that their sizes give them. -/
inductive Spread (b : PoolBuilder) : Nat → List Instr → List (Instr × Nat) → Nat → Prop
  | nil {offset : Nat} : Spread b offset [] [] offset
  | cons {offset size stop : Nat} {i : Instr} {rest : List Instr} {placed : List (Instr × Nat)}
      (hsize : (encodedSize offset i).run b = .ok (size, b)) (hrest : Spread b (offset + size) rest placed stop) :
      Spread b offset (i :: rest) ((i, offset) :: placed) stop

/-- The fold of the layout carries the instructions so far, the latest first. -/
theorem encodes_foldlM_layout (code : List Instr) (offset : Nat) (done : List (Instr × Nat)) :
    Encodes (code.foldlM (fun (placed, offset) instr => do
        let size ← encodedSize offset instr
        pure ((instr, offset) :: placed, offset + size)) (done, offset))
      (fun b result => ∃ placed, result.1 = placed.reverse ++ done ∧ Spread b offset code placed result.2) := by
  induction code generalizing offset done with
  | nil => exact Encodes.pure fun _ _ => ⟨[], rfl, .nil⟩
  | cons i rest ih =>
      rw [List.foldlM_cons]
      refine @Encodes.bind _ _ _ _ (fun b result => ∃ size, result = ((i, offset) :: done, offset + size) ∧
        (encodedSize offset i).run b = .ok (size, b)) _ ?_ ?_
      · exact (encodes_encodedSize offset i).bind fun size => Encodes.pure fun b _ hsize => ⟨size, rfl, hsize⟩
      · rintro ⟨done', offset'⟩
        refine (ih offset' done').mono ?_
        rintro b result - ⟨placed, hplaced, hrest⟩ ⟨size, heq, hsize⟩
        cases heq
        refine ⟨(i, offset) :: placed, ?_, .cons hsize hrest⟩
        rw [hplaced, List.reverse_cons, List.append_assoc]
        rfl

theorem encodes_layout (code : List Instr) :
    Encodes (layout code) (fun b result => Spread b 0 code result.1 result.2) := by
  refine (encodes_foldlM_layout code 0 []).bind fun result => Encodes.pure ?_
  rintro b - ⟨placed, hplaced, hspread⟩
  rw [hplaced, List.append_nil, List.reverse_reverse]
  exact hspread

/-- A body that is not too long has no switch with too many cases. -/
theorem Spread.targets_le {code : List Instr} {placed : List (Instr × Nat)} (h : Spread b offset code placed stop)
    (hconsistent : ∀ i ∈ code, isConsistent i = true) :
    offset ≤ stop ∧ ∀ p ∈ placed, p.1.targets.length ≤ stop := by
  induction h with
  | nil => exact ⟨Nat.le_refl _, nofun⟩
  | @cons offset size stop i rest placed hsize _ ih =>
      obtain ⟨hstop, htargets⟩ := ih fun i' hi' => hconsistent i' (List.mem_cons_of_mem i hi')
      refine ⟨by omega, List.forall_mem_cons.2 ⟨?_, htargets⟩⟩
      have hfirst : i.targets.length ≤ size := by
        have hform := hconsistent i List.mem_cons_self
        cases i with
        | jump op target =>
            cases hsize
            simp [Instr.targets]
        | tableSwitch low high fallback targets =>
            cases hsize
            rw [Instr.targets, List.length_append, List.length_singleton]
            omega
        | lookupSwitch fallback keys targets =>
            cases hsize
            have hcount : targets.length = keys.length := eq_of_beq hform
            rw [Instr.targets, List.length_append, List.length_singleton]
            omega
        | _ => exact Nat.zero_le _
      show i.targets.length ≤ stop
      omega

theorem Spread.map_fst {code : List Instr} {placed : List (Instr × Nat)} (h : Spread b offset code placed stop) :
    placed.map Prod.fst = code := by
  induction h with
  | nil => rfl
  | cons _ _ ih => rw [List.map_cons, ih]

end Writing

section Places

/-- Instructions and markers at consecutive offsets, with their bytes. -/
inductive Laid (b : PoolBuilder) (offsets : List (Label × Nat)) : Nat → List (Instr × Nat) → List Bytes → Nat → Prop
  | nil {offset : Nat} : Laid b offsets offset [] [] offset
  | marker {offset stop : Nat} {i : Instr} {rest : List (Instr × Nat)} {blocks : List Bytes}
      (hmarker : i.isMarker = true) (hrest : Laid b offsets offset rest blocks stop) :
      Laid b offsets offset ((i, offset) :: rest) ([] :: blocks) stop
  | instr {offset stop : Nat} {i : Instr} {rest : List (Instr × Nat)} {op : Opcode} {operands : Bytes}
      {blocks : List Bytes} (hreal : i.isMarker = false) (hreads : Reads b offsets offset i op operands)
      (hrest : Laid b offsets (offset + operands.length + 1) rest blocks stop) :
      Laid b offsets offset ((i, offset) :: rest) ((op :: operands) :: blocks) stop

theorem Spread.laid {code : List Instr} {placed : List (Instr × Nat)} {blocks : List Bytes}
    (h : Spread b offset code placed stop)
    (hblocks : List.Forall₂ (fun p block => Renders b offsets p.2 p.1 block) placed blocks) :
    Laid b offsets offset placed blocks stop := by
  induction h generalizing blocks with
  | nil =>
      cases hblocks
      exact .nil
  | @cons offset size stop i rest placed hsize _ ih =>
      obtain ⟨block, others, hfirst, hothers, rfl⟩ := List.forall₂_cons_left_iff.1 hblocks
      have hlength : size = block.length := by
        have hsame := hfirst.size
        rw [hsize] at hsame
        cases hsame
        rfl
      have hrest := ih hothers
      rw [hlength] at hrest
      cases hfirst with
      | marker hmarker => exact .marker hmarker hrest
      | instr hreal hstores =>
          obtain ⟨op, operands, rfl, hreads⟩ := hstores
          exact .instr hreal hreads hrest

variable {placed : List (Instr × Nat)} {blocks : List Bytes}

theorem Laid.stop_eq (h : Laid b offsets offset placed blocks stop) : stop = offset + blocks.flatten.length := by
  induction h with
  | nil => rfl
  | marker _ _ ih => rw [ih, List.flatten_cons, List.nil_append]
  | instr _ _ _ ih =>
      rw [ih, List.flatten_cons, List.length_append, List.length_cons]
      omega

/-- The instructions without the markers. -/
def reals (placed : List (Instr × Nat)) : List (Instr × Nat) :=
  placed.filter fun p => !p.1.isMarker

@[simp] theorem reals_nil : reals [] = [] := rfl

theorem reals_cons_marker (h : i.isMarker = true) (rest : List (Instr × Nat)) :
    reals ((i, offset) :: rest) = reals rest := by
  simp [reals, h]

theorem reals_cons_instr (h : i.isMarker = false) (rest : List (Instr × Nat)) :
    reals ((i, offset) :: rest) = (i, offset) :: reals rest := by
  simp [reals, h]

/-- The offsets at which instructions start. -/
def starts (placed : List (Instr × Nat)) : List Nat :=
  (reals placed).map Prod.snd

theorem starts_cons_marker (h : i.isMarker = true) (rest : List (Instr × Nat)) :
    starts ((i, offset) :: rest) = starts rest := by
  rw [starts, reals_cons_marker h, starts]

theorem starts_cons_instr (h : i.isMarker = false) (rest : List (Instr × Nat)) :
    starts ((i, offset) :: rest) = offset :: starts rest := by
  rw [starts, reals_cons_instr h, List.map_cons, starts]

/-- The offsets at which instructions start, and the end of the code. -/
def boundaries (placed : List (Instr × Nat)) (stop : Nat) : List Nat :=
  starts placed ++ [stop]

theorem Laid.first_mem (h : Laid b offsets offset placed blocks stop) : offset ∈ boundaries placed stop := by
  induction h with
  | nil => exact List.mem_singleton_self _
  | marker hmarker _ ih => rwa [boundaries, starts_cons_marker hmarker]
  | instr hreal _ _ _ =>
      rw [boundaries, starts_cons_instr hreal]
      exact List.mem_cons_self

/-- A marker stands where an instruction starts or at the end. -/
theorem Laid.mem_boundaries (h : Laid b offsets offset placed blocks stop) :
    ∀ p ∈ placed, p.2 ∈ boundaries placed stop := by
  induction h with
  | nil => exact nofun
  | marker hmarker hrest ih =>
      rw [boundaries, starts_cons_marker hmarker]
      exact List.forall_mem_cons.2 ⟨hrest.first_mem, ih⟩
  | instr hreal _ _ ih =>
      rw [boundaries, starts_cons_instr hreal]
      exact List.forall_mem_cons.2 ⟨List.mem_cons_self, fun p hp => List.mem_cons_of_mem _ (ih p hp)⟩

theorem Laid.le_of_mem (h : Laid b offsets offset placed blocks stop) : ∀ o ∈ boundaries placed stop, offset ≤ o := by
  induction h with
  | nil => simp [boundaries, starts]
  | marker hmarker _ ih => rwa [boundaries, starts_cons_marker hmarker]
  | @instr offset stop i rest op operands blocks hreal _ _ ih =>
      rw [boundaries, starts_cons_instr hreal]
      refine List.forall_mem_cons.2 ⟨Nat.le_refl _, fun o ho => ?_⟩
      have hle := ih o ho
      omega

/-- The boundaries ascend. -/
theorem Laid.pairwise (h : Laid b offsets offset placed blocks stop) : (boundaries placed stop).Pairwise (· < ·) := by
  induction h with
  | nil => exact List.pairwise_singleton _ _
  | marker hmarker _ ih => rwa [boundaries, starts_cons_marker hmarker]
  | @instr offset stop i rest op operands blocks hreal _ hrest ih =>
      rw [boundaries, starts_cons_instr hreal]
      refine List.pairwise_cons.2 ⟨fun o ho => ?_, ih⟩
      have hle := hrest.le_of_mem o ho
      show offset < o
      omega

theorem Laid.le_stop (h : Laid b offsets offset placed blocks stop) : ∀ o ∈ boundaries placed stop, o ≤ stop := by
  intro o ho
  rcases List.mem_append.1 ho with hstart | hstop
  · exact Nat.le_of_lt ((List.pairwise_append.1 h.pairwise).2.2 o hstart stop (List.mem_singleton_self _))
  · exact Nat.le_of_eq (List.mem_singleton.1 hstop)

end Places

section Cutting

theorem cut_cons {op : Opcode} {operands rest : Bytes} {found : List Nat}
    (hlength : instrLength offset op (op :: operands ++ rest) = .ok (operands.length + 1))
    (htargets : branchTargets ⟨offset, op, operands, rest⟩ = .ok found) (pieces : List Piece)
    (targets : List Nat) :
    cut offset (op :: operands ++ rest) pieces targets =
      cut (offset + operands.length + 1) rest (⟨offset, op, operands, rest⟩ :: pieces) (found ++ targets) := by
  rw [List.cons_append] at hlength ⊢
  rw [cut, hlength]
  simp only [List.take_left, List.drop_left, Nat.lt_irrefl, if_false, htargets]

/-- The piece of an instruction: it starts at the offset of the instruction, and is decoded to it with the labels
that the reader has for the offsets of its operands. -/
def IsPieceOf (b : PoolBuilder) (offsets : List (Label × Nat)) (p : Instr × Nat) (piece : Piece) : Prop :=
  piece.offset = p.2 ∧ ∀ (places : Labels) (f : Label → Label),
    (∀ label ∈ p.1.targets, ∀ o, offsets.lookup label = some o → places.lookup o = some (f label)) →
      decodePiece b.table places piece = .ok (p.1.relabel f)

theorem targets_of_isMarker (h : i.isMarker = true) : i.targets = [] := by
  cases i <;> first | rfl | cases h

theorem Laid.exists_lookup {placed : List (Instr × Nat)} {blocks : List Bytes}
    (h : Laid b offsets offset placed blocks stop) :
    ∀ p ∈ placed, ∀ label ∈ p.1.targets, ∃ o, offsets.lookup label = some o := by
  induction h with
  | nil => exact nofun
  | marker hmarker _ ih =>
      refine List.forall_mem_cons.2 ⟨?_, ih⟩
      rw [targets_of_isMarker hmarker]
      exact nofun
  | instr _ hreads _ ih => exact List.forall_mem_cons.2 ⟨hreads.placed, ih⟩

/-- The bytes are cut into the pieces of the instructions, and the targets are the offsets of all label operands. -/
theorem Laid.cut {placed : List (Instr × Nat)} {blocks : List Bytes} (h : Laid b offsets offset placed blocks stop)
    (pieces : List Piece) (targets : List Nat) :
    ∃ more found, Code.cut offset blocks.flatten pieces targets = .ok (pieces.reverse ++ more, found ++ targets) ∧
      List.Forall₂ (IsPieceOf b offsets) (reals placed) more ∧
      ∀ o, o ∈ found ↔ ∃ p ∈ placed, ∃ label ∈ p.1.targets, offsets.lookup label = some o := by
  induction h generalizing pieces targets with
  | nil =>
      refine ⟨[], [], ?_, .nil, by simp⟩
      rw [List.flatten_nil, Code.cut, List.append_nil, List.nil_append]
  | marker hmarker _ ih =>
      obtain ⟨more, found, hcut, hmore, hfound⟩ := ih pieces targets
      refine ⟨more, found, hcut, ?_, fun o => ?_⟩
      · rwa [reals_cons_marker hmarker]
      · rw [hfound, List.exists_mem_cons_iff, targets_of_isMarker hmarker]
        simp
  | @instr offset stop i rest op operands blocks hreal hreads _ ih =>
      obtain ⟨first, hfirst, hmem⟩ := hreads.targets
      obtain ⟨more, found, hcut, hmore, hfound⟩ :=
        ih (⟨offset, op, operands, blocks.flatten⟩ :: pieces) (first ++ targets)
      refine ⟨⟨offset, op, operands, blocks.flatten⟩ :: more, found ++ first, ?_, ?_, fun o => ?_⟩
      · rw [List.flatten_cons, cut_cons (hreads.length _) (hfirst _), hcut]
        simp
      · rw [reals_cons_instr hreal]
        exact .cons ⟨rfl, fun places f hf => hreads.decoded places f hf blocks.flatten⟩ hmore
      · rw [List.mem_append, hfound, hmem, List.exists_mem_cons_iff, or_comm]

end Cutting

end Unscramble.ClassFile.Code
