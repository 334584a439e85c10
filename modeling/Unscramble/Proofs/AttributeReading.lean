/-
Attributes are read back.  The body of a method is an attribute with its code, the handler ranges, and the line
numbers in an attribute of their own.
-/
import Unscramble.Proofs.BodyReading

namespace Unscramble.ClassFile

open PoolBuilder Reader

section Parts

variable {pool : ConstantPool} {depth : Nat} {name : UInt16} {body block : Bytes}

theorem countBytes_eq_ok {what : String} {count : Nat} {bytes : Bytes} (h : countBytes what count = .ok bytes) :
    count ≤ 65535 ∧ bytes = u16Bytes (UInt16.ofNat count) := by
  rw [countBytes] at h
  split at h
  · cases h
  · cases h
    exact ⟨by omega, rfl⟩

theorem attributeBytes_eq_ok (h : attributeBytes name body = .ok block) :
    block = u16Bytes name ++ (u32Bytes (UInt32.ofNat body.length) ++ body) := by
  rw [attributeBytes] at h
  split at h
  · cases h
  · cases h
    rw [List.append_assoc]

theorem takes_constantValue {index : UInt16} (hname : pool[name.toNat]? = some (.utf8 "ConstantValue"))
    (h : attributeBytes name (u16Bytes index) = .ok block) :
    Takes (Attribute.read pool (depth + 1)) block (.constantValue index) := by
  rw [attributeBytes_eq_ok h]
  refine (takes_u16 name).bind ((takes_u32 _).bind ?_)
  simp only [hname]
  exact (takes_u16 index).last (Takes.pure _)

theorem takes_sourceFile {index : UInt16} (hname : pool[name.toNat]? = some (.utf8 "SourceFile"))
    (h : attributeBytes name (u16Bytes index) = .ok block) :
    Takes (Attribute.read pool (depth + 1)) block (.sourceFile index) := by
  rw [attributeBytes_eq_ok h]
  refine (takes_u16 name).bind ((takes_u32 _).bind ?_)
  simp only [hname]
  exact (takes_u16 index).last (Takes.pure _)

theorem takes_exceptions {types : List UInt16} (hname : pool[name.toNat]? = some (.utf8 "Exceptions"))
    (hcount : types.length ≤ 65535)
    (h : attributeBytes name (u16Bytes (UInt16.ofNat types.length) ++ (types.map u16Bytes).flatten) = .ok block) :
    Takes (Attribute.read pool (depth + 1)) block (.exceptions types) := by
  have htypes : List.Forall₂ (Takes u16) (types.map u16Bytes) types :=
    List.forall₂_map_left_iff.2 (List.forall₂_same.2 fun type _ => takes_u16 type)
  rw [attributeBytes_eq_ok h]
  refine (takes_u16 name).bind ((takes_u32 _).bind ?_)
  simp only [hname]
  exact (takes_counted htypes hcount).last (Takes.pure _)

/-- The written form of a line marker. -/
def lineBytes (p : UInt16 × UInt16) : Bytes :=
  u16Bytes p.1 ++ u16Bytes p.2

theorem takes_line (p : UInt16 × UInt16) : Takes (do return (← u16, ← u16)) (lineBytes p) p :=
  (takes_u16 p.1).bind ((takes_u16 p.2).last (Takes.pure _))

theorem takes_lineNumbers {lines : List (UInt16 × UInt16)}
    (hname : pool[name.toNat]? = some (.utf8 "LineNumberTable")) (hcount : lines.length ≤ 65535)
    (h : attributeBytes name (u16Bytes (UInt16.ofNat lines.length) ++ (lines.map lineBytes).flatten) = .ok block) :
    Takes (Attribute.read pool (depth + 1)) block (.lineNumbers lines) := by
  have hlines := List.forall₂_map_left_iff.2 (List.forall₂_same.2 fun p (_ : p ∈ lines) => takes_line p)
  rw [attributeBytes_eq_ok h]
  refine (takes_u16 name).bind ((takes_u32 _).bind ?_)
  simp only [hname]
  exact (takes_counted hlines hcount).last (Takes.pure _)

def handlerBytes (raw : RawHandler) : Bytes :=
  u16Bytes raw.start ++ (u16Bytes raw.stop ++ (u16Bytes raw.handler ++ u16Bytes raw.catchType))

theorem takes_handler (raw : RawHandler) : Takes Attribute.readHandler (handlerBytes raw) raw :=
  (takes_u16 _).bind ((takes_u16 _).bind ((takes_u16 _).bind ((takes_u16 _).last (Takes.pure _))))

/-- The written form of a body with its tables of lines. -/
def codeBytes (raw : RawCode) (tables : Bytes) : Bytes :=
  u16Bytes raw.maxStack ++ (u16Bytes raw.maxLocals ++ (u32Bytes (UInt32.ofNat raw.code.length) ++ (raw.code ++
    (u16Bytes (UInt16.ofNat raw.handlers.length) ++ (raw.handlers.map handlerBytes).flatten ++ tables))))

theorem takes_code {raw : RawCode} {tables : Bytes} {nested : List Attribute}
    (hname : pool[name.toNat]? = some (.utf8 "Code"))
    (htables : Takes (counted (Attribute.read pool depth)) tables nested)
    (hlines : nested.flatMap Attribute.lines? = raw.lines) (hlength : raw.code.length ≤ 65535)
    (hcount : raw.handlers.length ≤ 65535) (h : attributeBytes name (codeBytes raw tables) = .ok block) :
    Takes (Attribute.read pool (depth + 1)) block (.code raw) := by
  have hhandlers := List.forall₂_map_left_iff.2
    (List.forall₂_same.2 fun p (_ : p ∈ raw.handlers) => takes_handler p)
  have hsize : raw.code.length = (UInt32.ofNat raw.code.length).toNat := by
    rw [UInt32.toNat_ofNat', Nat.mod_eq_of_lt (by omega)]
  rw [attributeBytes_eq_ok h]
  refine (takes_u16 name).bind ((takes_u32 _).bind ?_)
  simp only [hname]
  refine (takes_u16 _).bind ((takes_u16 _).bind ((takes_u32 _).bind ((takes_bytes hsize).bind ?_)))
  refine (takes_counted hhandlers hcount).bind (htables.last ?_)
  rw [hlines]
  exact Takes.pure _

end Parts

namespace Code

variable {b : PoolBuilder} {offsets : List (Label × Nat)}

theorem encodes_offsetOf (label : Label) :
    Encodes (liftM (offsetOf offsets label)) (fun _ o => offsets.lookup label = some o) :=
  (encodes_lift _).mono fun _ _ _ => offsetOf_eq_ok

/-- What is written for a handler range: nothing if it is empty. -/
def WritesRange (b : PoolBuilder) (offsets : List (Label × Nat)) (block : TryBlock) (result : Option Bytes) : Prop :=
  if isWrittenRange offsets block then ∃ raw, result = some (handlerBytes raw) ∧ HandlerFor b offsets block raw
  else result = none

theorem toNat_ofNat_of_le {n : Nat} (h : n ≤ 65535) : (UInt16.ofNat n).toNat = n := by
  rw [UInt16.toNat_ofNat', Nat.mod_eq_of_lt (by omega)]

theorem encodes_try (offsets : List (Label × Nat)) (block : TryBlock) :
    Encodes (encodeTry offsets block) (fun b result =>
      (∀ label o, offsets.lookup label = some o → o ≤ 65535) → WritesRange b offsets block result) := by
  refine (encodes_offsetOf block.start).bind fun start => ?_
  refine (encodes_offsetOf block.stop).bind fun stop => ?_
  split
  · next hempty =>
      refine Encodes.pure fun b _ hstop hstart _ => ?_
      have hwritten : isWrittenRange offsets block = false := by
        rw [isWrittenRange, hstart, hstop]
        exact decide_eq_false (by omega)
      rw [WritesRange, hwritten]
      rfl
  · next hproper =>
      refine (encodes_offsetOf block.handler).bind fun handler => ?_
      have hwrite : ∀ catchType : UInt16, Encodes (pure (some (u16Bytes (UInt16.ofNat start) ++
          u16Bytes (UInt16.ofNat stop) ++ u16Bytes (UInt16.ofNat handler) ++ u16Bytes catchType)))
          (fun b result => b.IsOptionalClass catchType block.catchType →
            offsets.lookup block.handler = some handler → offsets.lookup block.stop = some stop →
            offsets.lookup block.start = some start →
            (∀ label o, offsets.lookup label = some o → o ≤ 65535) → WritesRange b offsets block result) := by
        refine fun catchType => Encodes.pure fun b _ hcatch hhandler hstop hstart hbound => ?_
        have hwritten : isWrittenRange offsets block = true := by
          rw [isWrittenRange, hstart, hstop]
          exact decide_eq_true (by omega)
        rw [WritesRange, hwritten, if_pos rfl]
        refine ⟨⟨UInt16.ofNat start, UInt16.ofNat stop, UInt16.ofNat handler, catchType⟩, ?_, ?_, ?_, ?_, hcatch⟩
        · rw [handlerBytes, List.append_assoc, List.append_assoc]
        · rw [toNat_ofNat_of_le (hbound _ _ hstart), hstart]
        · rw [toNat_ofNat_of_le (hbound _ _ hstop), hstop]
        · rw [toNat_ofNat_of_le (hbound _ _ hhandler), hhandler]
      split
      · next name hname =>
          refine (encodes_classRef name).bind fun catchType => (hwrite catchType).mono ?_
          exact fun b _ _ hnext hclass => hnext (.inr ⟨hclass.2, name, hclass.1, hname⟩)
      · next hname =>
          refine (hwrite 0).mono ?_
          exact fun b _ _ hnext => hnext (.inl ⟨rfl, hname⟩)

theorem exists_handlers {tries : List TryBlock} {results : List (Option Bytes)}
    (h : List.Forall₂ (WritesRange b offsets) tries results) :
    ∃ handlers, results.filterMap id = handlers.map handlerBytes ∧
      List.Forall₂ (HandlerFor b offsets) (tries.filter (isWrittenRange offsets)) handlers := by
  induction h with
  | nil => exact ⟨[], rfl, .nil⟩
  | @cons block result tries results hfirst _ ih =>
      obtain ⟨handlers, hresults, hhandlers⟩ := ih
      rw [WritesRange] at hfirst
      split at hfirst
      · next hwritten =>
          obtain ⟨raw, rfl, hraw⟩ := hfirst
          refine ⟨raw :: handlers, ?_, ?_⟩
          · rw [List.filterMap_cons, hresults]
            rfl
          · rw [List.filter_cons_of_pos hwritten]
            exact .cons hraw hhandlers
      · next hwritten =>
          refine ⟨handlers, ?_, ?_⟩
          · rw [hfirst, List.filterMap_cons, hresults]
            rfl
          · rwa [List.filter_cons_of_neg hwritten]

theorem encodeLines_eq (placed : List (Instr × Nat)) (length : Nat) :
    encodeLines placed length = (writtenLines placed length).map fun p => lineBytes (UInt16.ofNat p.1, p.2) := by
  rw [encodeLines, writtenLines, List.map_filterMap]
  refine List.filterMap_congr ?_
  rintro ⟨i, o⟩ -
  cases i with
  | line n => by_cases hlt : o < length <;> simp [hlt, Instr.line?, lineBytes]
  | _ => simp [Instr.line?]

/-- The tables of a body hold these lines. -/
def TablesFor (b : PoolBuilder) (lines : List (UInt16 × UInt16)) (tables : Bytes) : Prop :=
  ∃ nested, (∀ depth, Takes (counted (Attribute.read b.table (depth + 1))) tables nested) ∧
    nested.flatMap Attribute.lines? = lines

theorem tablesFor_nil (b : PoolBuilder) : TablesFor b [] (u16Bytes 0) :=
  ⟨[], fun _ => takes_counted_nil _, rfl⟩

theorem tablesFor_lines {lines : List (UInt16 × UInt16)} {name : UInt16} {block : Bytes}
    (hname : b.table[name.toNat]? = some (.utf8 "LineNumberTable")) (hcount : lines.length ≤ 65535)
    (h : attributeBytes name (u16Bytes (UInt16.ofNat lines.length) ++ (lines.map lineBytes).flatten) = .ok block) :
    TablesFor b lines (u16Bytes 1 ++ block) := by
  refine ⟨[.lineNumbers lines], fun depth => ?_, by simp [Attribute.lines?]⟩
  exact takes_counted_one (takes_lineNumbers hname hcount h)

/-- A written body: it is read back as a raw one that is decoded to the same outline, less what is not written. -/
structure BodyFor (b : PoolBuilder) (m : MethodDecl) (body : Bytes) (raw : RawCode) : Prop where
  taken : ∀ (depth : Nat) (name : UInt16) (block : Bytes), b.table[name.toNat]? = some (.utf8 "Code") →
    attributeBytes name body = .ok block → Takes (Attribute.read b.table (depth + 2)) block (.code raw)
  maxStack : raw.maxStack = m.maxStack
  maxLocals : raw.maxLocals = m.maxLocals
  decoded : ∀ first, ∃ code tries next, decode b.table first raw = .ok (code, tries, next) ∧
    outline code tries = (outline m.code m.tries).trimmed

/-- The line markers of a body as they are written. -/
def rawLines (placed : List (Instr × Nat)) (length : Nat) : List (UInt16 × UInt16) :=
  (writtenLines placed length).map fun p => (UInt16.ofNat p.1, p.2)

theorem exists_bodyFor {m : MethodDecl} {placed : List (Instr × Nat)} {length : Nat} {blocks : List Bytes}
    {results : List (Option Bytes)} {handlerCount tables : Bytes}
    (hconsistent : ∀ i ∈ m.code, isConsistent i = true) (hlength : length ≤ 65535)
    (hspread : Spread b 0 m.code placed length)
    (hblocks : List.Forall₂ (fun (p : (Instr × Nat) × Nat) block =>
      p.1.1.targets.length ≤ 65536 → Renders b (labelOffsets placed) p.1.2 p.1.1 block) placed.zipIdx blocks)
    (hresults : List.Forall₂ (fun block result =>
      (∀ label o, (labelOffsets placed).lookup label = some o → o ≤ 65535) →
        WritesRange b (labelOffsets placed) block result) m.tries results)
    (hcount : countBytes "exception handlers" (results.filterMap id).length = .ok handlerCount)
    (htables : TablesFor b (rawLines placed length) tables) :
    ∃ raw, BodyFor b m (u16Bytes m.maxStack ++ u16Bytes m.maxLocals ++ u32Bytes (UInt32.ofNat length) ++
      blocks.flatten ++ handlerCount ++ (results.filterMap id).flatten ++ tables) raw := by
  have hsmall := (hspread.targets_le hconsistent).2
  have hrenders : List.Forall₂ (fun p block => Renders b (labelOffsets placed) p.2 p.1 block) placed blocks := by
    have hall : ∀ p ∈ placed.zipIdx, p.1.1.targets.length ≤ 65536 := by
      intro p hp
      have hle := hsmall p.1 (List.fst_mem_of_mem_zipIdx hp)
      omega
    have hpairs : List.Forall₂ (fun p block => Renders b (labelOffsets placed) p.2 p.1 block)
        (placed.zipIdx.map Prod.fst) blocks :=
      List.forall₂_map_left_iff.2 (((List.forall₂_and_left _ _).2 ⟨hall, hblocks⟩).imp fun _ _ h => h.2 h.1)
    rwa [List.zipIdx_map_fst] at hpairs
  have hlaid := hspread.laid hrenders
  have hbound : ∀ label o, (labelOffsets placed).lookup label = some o → o ≤ 65535 := by
    intro label o ho
    have hle := hlaid.le_stop _ (hlaid.mem_boundaries _ (mem_of_labelOffsets ho))
    exact Nat.le_trans hle hlength
  obtain ⟨handlers, hbytes, hhandlers⟩ := exists_handlers (hresults.imp fun _ _ h => h hbound)
  obtain ⟨nested, htakes, hlines⟩ := htables
  obtain ⟨hfew, rfl⟩ := countBytes_eq_ok hcount
  rw [hbytes, List.length_map] at hfew
  have hstop : length = blocks.flatten.length := by
    rw [hlaid.stop_eq, Nat.zero_add]
  have hnumbers : (rawLines placed length).map (fun p => (p.1.toNat, p.2)) = writtenLines placed length := by
    rw [rawLines, List.map_map]
    refine (List.map_congr_left fun p hp => ?_).trans (List.map_id _)
    have hlt := (mem_writtenLines hp).1
    exact Prod.ext (toNat_ofNat_of_le (by omega)) rfl
  let raw : RawCode := ⟨m.maxStack, m.maxLocals, blocks.flatten, handlers, rawLines placed length⟩
  refine ⟨raw, ?_, rfl, rfl, ?_⟩
  · intro depth name block hname hblock
    refine takes_code hname (htakes depth) hlines (hstop ▸ hlength) hfew ?_
    rw [← hblock, codeBytes, hbytes, List.length_map, hstop]
    simp only [List.append_assoc, raw]
  · intro first
    have hdecoded := @Laid.decode_outline b _ _ _ _ raw _ hlaid rfl rfl hnumbers hhandlers first
    rwa [hspread.map_fst] at hdecoded

theorem encodes_instrs {placed : List (Instr × Nat)} (hconsistent : ∀ i ∈ placed.map Prod.fst, isConsistent i = true) :
    Encodes (placed.zipIdx.mapM fun ((instr, offset), index) =>
        fun b => (encodeInstr (labelOffsets placed) offset instr b).mapError (.instr index instr))
      (fun b blocks => List.Forall₂ (fun (p : (Instr × Nat) × Nat) block =>
        p.1.1.targets.length ≤ 65536 → Renders b (labelOffsets placed) p.1.2 p.1.1 block) placed.zipIdx blocks) := by
  refine Encodes.mapM fun p hp => Encodes.mapError (encodes_instr _ _ (hconsistent _ ?_))
  exact List.mem_map_of_mem (List.fst_mem_of_mem_zipIdx hp)

theorem encodes_body {m : MethodDecl} (hconsistent : ∀ i ∈ m.code, isConsistent i = true) :
    Encodes (encode m) (fun b body => ∃ raw, BodyFor b m body raw) := by
  have hlayout : Encodes (layout m.code) (fun b result =>
      result.1.map Prod.fst = m.code ∧ Spread b 0 m.code result.1 result.2) :=
    (encodes_layout m.code).mono fun b result _ hspread => ⟨hspread.map_fst, hspread⟩
  refine hlayout.bind_of ?_
  rintro ⟨placed, length⟩ hplaced
  dsimp only at hplaced ⊢
  split
  · exact Encodes.throw_bind
  · next hlength =>
      refine (encodes_instrs (hplaced ▸ hconsistent)).bind fun blocks => ?_
      refine (Encodes.mapM fun block _ => encodes_try (labelOffsets placed) block).bind fun results => ?_
      refine (encodes_lift _).bind fun handlerCount => ?_
      have hlines : encodeLines placed length = (rawLines placed length).map lineBytes := by
        rw [encodeLines_eq, rawLines, List.map_map]
        rfl
      have hfinish : ∀ tables : Bytes, Encodes (pure (u16Bytes m.maxStack ++ u16Bytes m.maxLocals ++
          u32Bytes (UInt32.ofNat length) ++ blocks.flatten ++ handlerCount ++ (results.filterMap id).flatten ++ tables))
          (fun b body => TablesFor b (rawLines placed length) tables →
            countBytes "exception handlers" (results.filterMap id).length = .ok handlerCount →
            List.Forall₂ (fun block result =>
              (∀ label o, (labelOffsets placed).lookup label = some o → o ≤ 65535) →
                WritesRange b (labelOffsets placed) block result) m.tries results →
            List.Forall₂ (fun (p : (Instr × Nat) × Nat) block =>
              p.1.1.targets.length ≤ 65536 → Renders b (labelOffsets placed) p.1.2 p.1.1 block)
              placed.zipIdx blocks →
            Spread b 0 m.code placed length → ∃ raw, BodyFor b m body raw) :=
        fun tables => Encodes.pure fun b _ htables hcount hresults hblocks hspread =>
          exists_bodyFor hconsistent (by omega) hspread hblocks hresults hcount htables
      split
      · next hempty =>
          rw [hlines, List.isEmpty_map, List.isEmpty_iff] at hempty
          refine (hfinish (u16Bytes 0)).mono fun b _ _ hbody => hbody ?_
          rw [hempty]
          exact tablesFor_nil b
      · refine (encodes_utf8 "LineNumberTable").bind fun name => ?_
        refine (encodes_lift _).bind fun count => ?_
        refine (encodes_lift _).bind fun block => ?_
        refine (hfinish (u16Bytes 1 ++ block)).mono fun b _ hb hbody hblock hcount hname => hbody ?_
        obtain ⟨hfew, rfl⟩ := countBytes_eq_ok hcount
        rw [hlines, List.length_map] at hfew hblock
        exact tablesFor_lines (hb.table_getElem? hname) hfew hblock

end Code

end Unscramble.ClassFile
