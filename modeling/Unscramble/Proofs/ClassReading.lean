/-
A class is read back from its class file: with all its fields, and with all its methods up to the names of labels,
empty handler ranges and line markers behind the last instruction.
-/
import Unscramble.ClassFile.Decode
import Unscramble.Proofs.AttributeReading
import Unscramble.Proofs.Flow

namespace Unscramble

/-- The second method is the first one after it was written and read back: the same declaration, and the same body by
positions, less what is not written. -/
structure MethodDecl.Restored (m m' : MethodDecl) : Prop where
  name : m'.name = m.name
  descriptor : m'.descriptor = m.descriptor
  access : m'.access = m.access
  throws : m'.throws = m.throws
  noBody : m.hasCode = false → m'.hasCode = false
  body : m.hasCode = true → m'.maxStack = m.maxStack ∧ m'.maxLocals = m.maxLocals ∧
    outline m'.code m'.tries = (outline m.code m.tries).trimmed

/-- The second class is the first one after it was written and read back. -/
structure ClassDecl.Restored (c c' : ClassDecl) : Prop where
  name : c'.name = c.name
  superName : c'.superName = c.superName
  interfaces : c'.interfaces = c.interfaces
  access : c'.access = c.access
  minor : c'.minor = c.minor
  major : c'.major = min c.major ClassFile.maxMajor
  sourceFile : c'.sourceFile = c.sourceFile
  fields : c'.fields = c.fields
  methods : List.Forall₂ MethodDecl.Restored c.methods c'.methods

namespace ClassFile

open PoolBuilder Reader

section Members

variable {b : PoolBuilder} {access flags name descriptor : UInt16} {depth : Nat} {block : Bytes}
  {attributes : List Attribute}

theorem takes_member (haccess : access &&& flags = access)
    (h : Takes (counted (Attribute.read b.table depth)) block attributes) :
    Takes (RawClass.readMember b.table depth flags) (u16Bytes access ++ u16Bytes name ++ u16Bytes descriptor ++ block)
      ⟨access, name, descriptor, attributes⟩ := by
  rw [List.append_assoc, List.append_assoc]
  refine (takes_u16 access).bind ?_
  rw [haccess]
  exact (takes_u16 name).bind ((takes_u16 descriptor).bind (h.last (Takes.pure _)))

/-- A written field. -/
structure FieldFor (b : PoolBuilder) (f : FieldDecl) (block : Bytes) (raw : RawMember) : Prop where
  taken : ∀ depth, Takes (RawClass.readMember b.table (depth + 1) RawClass.fieldFlags) block raw
  decoded : decodeField b.table raw = .ok f

theorem fieldFor_of_value {f : FieldDecl} (hb : b.Sound) (haccess : f.access &&& RawClass.fieldFlags = f.access)
    (hname : b.indexes[PoolEntry.utf8 f.name]? = some name)
    (hdescriptor : b.indexes[PoolEntry.utf8 f.descriptor]? = some descriptor)
    (htakes : ∀ depth, Takes (counted (Attribute.read b.table (depth + 1))) block attributes)
    (hvalue : attributes = [] ∧ f.value = none ∨
      ∃ index value, attributes = [.constantValue index] ∧ b.table.constant index = .ok value ∧ f.value = some value) :
    FieldFor b f (u16Bytes f.access ++ u16Bytes name ++ u16Bytes descriptor ++ block)
      ⟨f.access, name, descriptor, attributes⟩ := by
  refine ⟨fun depth => takes_member haccess (htakes depth), ?_⟩
  refine bind_eq_ok.2 ⟨f.name, mapError_eq_ok.2 (hb.utf8 hname), ?_⟩
  refine bind_eq_ok.2 ⟨f.descriptor, mapError_eq_ok.2 (hb.utf8 hdescriptor), ?_⟩
  refine bind_eq_ok.2 ⟨f.value, ?_, rfl⟩
  rcases hvalue with ⟨rfl, hvalue⟩ | ⟨index, value, rfl, hconstant, hvalue⟩
  · rw [hvalue]
    rfl
  · rw [hvalue]
    simp only [List.foldlM_cons, hconstant]
    rfl

theorem encodes_fieldDecl {f : FieldDecl} (haccess : f.access &&& RawClass.fieldFlags = f.access) :
    Encodes (encodeField f) (fun b block => ∃ raw, FieldFor b f block raw) := by
  refine (encodes_utf8 f.name).bind fun name => ?_
  refine (encodes_utf8 f.descriptor).bind fun descriptor => ?_
  split
  · next hvalue =>
      refine Encodes.pure fun b hb hdescriptor hname => ⟨⟨f.access, name, descriptor, []⟩, ?_⟩
      exact fieldFor_of_value hb haccess hname hdescriptor (fun _ => takes_counted_nil _) (.inl ⟨rfl, hvalue⟩)
  · exact Encodes.throw_bind
  · next value _ hvalue =>
      refine (encodes_utf8 "ConstantValue").bind fun attrName => ?_
      refine (encodes_loadable value).bind fun index => ?_
      refine (encodes_lift _).bind fun block => ?_
      refine Encodes.pure fun b hb hblock hconstant hattr hdescriptor hname =>
        ⟨⟨f.access, name, descriptor, [.constantValue index]⟩, ?_⟩
      have htakes := fun depth => @takes_constantValue b.table depth _ _ _ (hb.table_getElem? hattr) hblock
      exact fieldFor_of_value hb haccess hname hdescriptor (fun depth => takes_counted_one (htakes depth))
        (.inr ⟨index, value, rfl, hconstant.1, hvalue⟩)

/-- A method with its name and type only. -/
def bare (m : MethodDecl) : MethodDecl :=
  { name := m.name, descriptor := m.descriptor, access := m.access }

/-- The attribute with the body of a method, or none. -/
structure CodePart (b : PoolBuilder) (m : MethodDecl) (blocks : List Bytes) (attributes : List Attribute) : Prop where
  taken : ∀ depth, List.Forall₂ (Takes (Attribute.read b.table (depth + 2))) blocks attributes
  few : attributes.length ≤ 1
  decoded : ∃ m' next, attributes.foldlM (decodeMethodAttribute b.table) (bare m, 0) = .ok (m', next) ∧
    m'.throws = [] ∧ m.Restored { m' with throws := m.throws }

theorem codePart_nil {m : MethodDecl} (h : m.hasCode = false) (b : PoolBuilder) : CodePart b m [] [] := by
  refine ⟨fun _ => .nil, Nat.zero_le _, bare m, 0, rfl, rfl, rfl, rfl, rfl, rfl, fun _ => rfl, fun hcode => ?_⟩
  rw [h] at hcode
  cases hcode

theorem codePart_body {m : MethodDecl} {body : Bytes} {raw : RawCode} (h : m.hasCode = true)
    (hbody : Code.BodyFor b m body raw) (hname : b.table[name.toNat]? = some (.utf8 "Code"))
    (hblock : attributeBytes name body = .ok block) : CodePart b m [block] [.code raw] := by
  obtain ⟨code, tries, next, hdecode, houtline⟩ := hbody.decoded 0
  refine ⟨fun depth => .cons (hbody.taken depth name block hname hblock) .nil, Nat.le_refl _, ?_⟩
  refine ⟨{ bare m with code, tries, maxStack := raw.maxStack, maxLocals := raw.maxLocals }, next, ?_, rfl, rfl, rfl,
    rfl, rfl, fun hnone => ?_, fun _ => ⟨hbody.maxStack, hbody.maxLocals, houtline⟩⟩
  · rw [List.foldlM_cons]
    refine bind_eq_ok.2 ⟨_, bind_eq_ok.2 ⟨_, mapError_eq_ok.2 hdecode, rfl⟩, rfl⟩
  · rw [h] at hnone
    cases hnone

/-- The attribute with the exceptions of a method, or none. -/
structure ThrowsPart (b : PoolBuilder) (m : MethodDecl) (blocks : List Bytes) (attributes : List Attribute) :
    Prop where
  taken : ∀ depth, List.Forall₂ (Takes (Attribute.read b.table (depth + 2))) blocks attributes
  few : attributes.length ≤ 1
  decoded : ∀ (m' : MethodDecl) next, m'.throws = [] →
    attributes.foldlM (decodeMethodAttribute b.table) (m', next) = .ok ({ m' with throws := m.throws }, next)

theorem throwsPart_nil {m : MethodDecl} (h : m.throws = []) (b : PoolBuilder) : ThrowsPart b m [] [] := by
  refine ⟨fun _ => .nil, Nat.zero_le _, fun m' next hthrows => ?_⟩
  rw [h, ← hthrows]
  rfl

theorem throwsPart_exceptions {m : MethodDecl} {types : List UInt16}
    (htypes : List.Forall₂ (fun type index => b.table.className index = .ok type) m.throws types)
    (hname : b.table[name.toNat]? = some (.utf8 "Exceptions")) (hcount : types.length ≤ 65535)
    (hblock : attributeBytes name (u16Bytes (UInt16.ofNat types.length) ++ (types.map u16Bytes).flatten) = .ok block) :
    ThrowsPart b m [block] [.exceptions types] := by
  refine ⟨fun depth => .cons (takes_exceptions hname hcount hblock) .nil, Nat.le_refl _, fun m' next hthrows => ?_⟩
  have hnames : types.mapM (fun index => (b.table.className index).mapError DecodeFault.declaredException) =
      .ok m.throws :=
    mapM_eq_ok.2 (htypes.imp fun _ _ h => mapError_eq_ok.2 h).flip
  rw [List.foldlM_cons]
  refine bind_eq_ok.2 ⟨_, bind_eq_ok.2 ⟨m.throws, hnames, rfl⟩, ?_⟩
  rw [hthrows, List.nil_append]
  rfl

/-- A written method. -/
structure MethodFor (b : PoolBuilder) (m : MethodDecl) (block : Bytes) (raw : RawMember) : Prop where
  taken : ∀ depth, Takes (RawClass.readMember b.table (depth + 2) RawClass.methodFlags) block raw
  decoded : ∃ m', decodeMethod b.table raw = .ok m' ∧ m.Restored m'

theorem methodFor_of_parts {m : MethodDecl} {code throws : List Bytes} {codeAttrs throwsAttrs : List Attribute}
    (hb : b.Sound) (haccess : m.access &&& RawClass.methodFlags = m.access)
    (hname : b.indexes[PoolEntry.utf8 m.name]? = some name)
    (hdescriptor : b.indexes[PoolEntry.utf8 m.descriptor]? = some descriptor)
    (hcode : CodePart b m code codeAttrs) (hthrows : ThrowsPart b m throws throwsAttrs) :
    MethodFor b m (u16Bytes m.access ++ u16Bytes name ++ u16Bytes descriptor ++
      u16Bytes (UInt16.ofNat (code ++ throws).length) ++ (code ++ throws).flatten)
      ⟨m.access, name, descriptor, codeAttrs ++ throwsAttrs⟩ := by
  obtain ⟨m', next, hdecoded, hnone, hrestored⟩ := hcode.decoded
  have hfew := hcode.few
  have hfew' := hthrows.few
  refine ⟨fun depth => ?_, _, ?_, hrestored⟩
  · have hblocks := List.rel_append (hcode.taken depth) (hthrows.taken depth)
    have hcounted := takes_counted hblocks (by rw [List.length_append]; omega)
    rw [← hblocks.length_eq] at hcounted
    rw [List.append_assoc _ (u16Bytes _)]
    exact takes_member haccess hcounted
  · refine bind_eq_ok.2 ⟨m.name, mapError_eq_ok.2 (hb.utf8 hname), ?_⟩
    refine bind_eq_ok.2 ⟨m.descriptor, mapError_eq_ok.2 (hb.utf8 hdescriptor), ?_⟩
    refine bind_eq_ok.2 ⟨({ m' with throws := m.throws }, next), ?_, rfl⟩
    rw [List.foldlM_append]
    exact bind_eq_ok.2 ⟨(m', next), hdecoded, hthrows.decoded m' next hnone⟩

/-- References to classes, one after another. -/
theorem encodes_classRefs (names : List String) :
    Encodes (names.mapM fun name => do return u16Bytes (← classRef name)) (fun b blocks => ∃ indexes,
      blocks = indexes.map u16Bytes ∧
        List.Forall₂ (fun name index => b.table.className index = .ok name) names indexes) := by
  have hrefs : Encodes (names.mapM fun name => do return u16Bytes (← classRef name)) (fun b blocks =>
      List.Forall₂ (fun name block => ∃ index, block = u16Bytes index ∧ b.table.className index = .ok name)
        names blocks) := by
    refine Encodes.mapM fun name _ => (encodes_classRef name).bind fun index => Encodes.pure ?_
    exact fun b _ hindex => ⟨index, rfl, hindex.1⟩
  refine hrefs.mono fun b blocks _ h => ?_
  clear hrefs
  induction h with
  | nil => exact ⟨[], rfl, .nil⟩
  | cons hfirst _ ih =>
      obtain ⟨index, rfl, hindex⟩ := hfirst
      obtain ⟨indexes, rfl, hindexes⟩ := ih
      exact ⟨index :: indexes, rfl, .cons hindex hindexes⟩

/-- The part of a method that writes its body. -/
def encodeCodePart (m : MethodDecl) : Encoder (List Bytes) :=
  if m.hasCode then do
    let attrName ← utf8 "Code"
    pure [← attributeBytes attrName (← Code.encode m)]
  else pure []

/-- The part of a method that writes its exceptions. -/
def encodeThrowsPart (m : MethodDecl) : Encoder (List Bytes) :=
  if m.throws.isEmpty then pure []
  else do
    let attrName ← utf8 "Exceptions"
    let count ← countBytes "exceptions" m.throws.length
    let types ← m.throws.mapM fun type => return u16Bytes (← classRef type)
    pure [← attributeBytes attrName (count ++ types.flatten)]

theorem encodeMethod_eq (m : MethodDecl) : encodeMethod m = (do
    let name ← utf8 m.name
    let descriptor ← utf8 m.descriptor
    let code ← encodeCodePart m
    let throws ← encodeThrowsPart m
    pure (u16Bytes m.access ++ u16Bytes name ++ u16Bytes descriptor ++
      u16Bytes (UInt16.ofNat (code ++ throws).length) ++ (code ++ throws).flatten)) := by
  unfold encodeMethod encodeCodePart encodeThrowsPart
  cases m.hasCode <;> cases m.throws.isEmpty <;> simp

theorem encodes_codePart {m : MethodDecl} (hconsistent : ∀ i ∈ m.code, isConsistent i = true) :
    Encodes (encodeCodePart m) (fun b blocks => ∃ attributes, CodePart b m blocks attributes) := by
  unfold encodeCodePart
  split
  · next hcode =>
      refine (encodes_utf8 "Code").bind fun name => ?_
      refine (Code.encodes_body hconsistent).bind fun body => ?_
      refine (encodes_lift _).bind fun block => Encodes.pure ?_
      rintro b hb hblock ⟨raw, hbody⟩ hname
      exact ⟨_, codePart_body hcode hbody (hb.table_getElem? hname) hblock⟩
  · next hcode => exact Encodes.pure fun b _ => ⟨_, codePart_nil (Bool.eq_false_of_not_eq_true hcode) b⟩

theorem encodes_throwsPart (m : MethodDecl) :
    Encodes (encodeThrowsPart m) (fun b blocks => ∃ attributes, ThrowsPart b m blocks attributes) := by
  unfold encodeThrowsPart
  split
  · next hthrows => exact Encodes.pure fun b _ => ⟨_, throwsPart_nil (List.isEmpty_iff.1 hthrows) b⟩
  · refine (encodes_utf8 "Exceptions").bind fun name => ?_
    refine (encodes_lift _).bind fun count => ?_
    refine (encodes_classRefs m.throws).bind fun blocks => ?_
    refine (encodes_lift _).bind fun block => Encodes.pure ?_
    rintro b hb hblock ⟨types, rfl, htypes⟩ hcount hname
    obtain ⟨hfew, rfl⟩ := countBytes_eq_ok hcount
    rw [htypes.length_eq] at hfew hblock
    exact ⟨_, throwsPart_exceptions htypes (hb.table_getElem? hname) hfew hblock⟩

theorem encodes_methodDecl {m : MethodDecl} (haccess : m.access &&& RawClass.methodFlags = m.access)
    (hconsistent : ∀ i ∈ m.code, isConsistent i = true) :
    Encodes (encodeMethod m) (fun b block => ∃ raw, MethodFor b m block raw) := by
  rw [encodeMethod_eq]
  refine (encodes_utf8 m.name).bind fun name => ?_
  refine (encodes_utf8 m.descriptor).bind fun descriptor => ?_
  refine (encodes_codePart hconsistent).bind fun code => ?_
  refine (encodes_throwsPart m).bind fun throws => Encodes.pure ?_
  rintro b hb ⟨throwsAttrs, hthrows⟩ ⟨codeAttrs, hcode⟩ hdescriptor hname
  exact ⟨_, methodFor_of_parts hb haccess hname hdescriptor hcode hthrows⟩

end Members

/-- The access flags of a class, its fields and its methods are among those that a reader keeps. -/
def hasKnownFlags (c : ClassDecl) : Bool :=
  c.access &&& RawClass.classFlags == c.access &&
    c.fields.all (fun f => f.access &&& RawClass.fieldFlags == f.access) &&
    c.methods.all (fun m => m.access &&& RawClass.methodFlags == m.access)

section Classes

variable {b : PoolBuilder} {c : ClassDecl}

theorem exists_raws {α : Type} {items : List α} {blocks : List Bytes} {isFor : α → Bytes → RawMember → Prop}
    {reader : Nat → Reader RawMember} (h : List.Forall₂ (fun a block => ∃ raw, isFor a block raw) items blocks)
    (htaken : ∀ a block raw, isFor a block raw → ∀ depth, Takes (reader depth) block raw) :
    ∃ raws, (∀ depth, List.Forall₂ (Takes (reader depth)) blocks raws) ∧
      List.Forall₂ (fun a raw => ∃ block, isFor a block raw) items raws := by
  induction h with
  | nil => exact ⟨[], fun _ => .nil, .nil⟩
  | cons hfirst _ ih =>
      obtain ⟨raw, hraw⟩ := hfirst
      obtain ⟨raws, htakes, hraws⟩ := ih
      exact ⟨raw :: raws, fun depth => .cons (htaken _ _ _ hraw depth) (htakes depth), .cons ⟨_, hraw⟩ hraws⟩

theorem mapM_decodeField {raws : List RawMember}
    (h : List.Forall₂ (fun f raw => ∃ block, FieldFor b f block raw) c.fields raws) :
    raws.mapM (decodeField b.table) = .ok c.fields := by
  refine mapM_eq_ok.2 (h.imp ?_).flip
  rintro f raw ⟨block, hfield⟩
  exact hfield.decoded

theorem exists_mapM_decodeMethod {methods : List MethodDecl} {raws : List RawMember}
    (h : List.Forall₂ (fun m raw => ∃ block, MethodFor b m block raw) methods raws) :
    ∃ restored, raws.mapM (decodeMethod b.table) = .ok restored ∧
      List.Forall₂ MethodDecl.Restored methods restored := by
  induction h with
  | nil => exact ⟨[], rfl, .nil⟩
  | @cons m raw methods raws hfirst _ ih =>
      obtain ⟨block, -, m', hdecode, hm'⟩ := hfirst
      obtain ⟨restored, hrestored, hmethods⟩ := ih
      refine ⟨m' :: restored, ?_, .cons hm' hmethods⟩
      rw [List.mapM_cons, hdecode, hrestored]
      rfl

/-- The reference to the super class, or 0. -/
def encodeSuper : Option String → Encoder UInt16
  | some name => classRef name
  | none => pure 0

/-- The attributes of a class. -/
def encodeSource : Option String → Encoder Bytes
  | none => pure (u16Bytes 0)
  | some file => do
      let attrName ← utf8 "SourceFile"
      let index ← utf8 file
      pure (u16Bytes 1 ++ (← attributeBytes attrName (u16Bytes index)))

theorem encodeBody_eq (c : ClassDecl) : encodeBody c = (do
    let name ← classRef c.name
    let superName ← encodeSuper c.superName
    let interfaceCount ← countBytes "interfaces" c.interfaces.length
    let interfaces ← c.interfaces.mapM fun interface => return u16Bytes (← classRef interface)
    let fieldCount ← countBytes "fields" c.fields.length
    let fields ← c.fields.mapM fun f => fun b => (encodeField f b).mapError (.field f.name)
    let methodCount ← countBytes "methods" c.methods.length
    let methods ← c.methods.mapM fun m => fun b => (encodeMethod m b).mapError (.method m.name m.descriptor)
    let attributes ← encodeSource c.sourceFile
    pure (u16Bytes c.access ++ u16Bytes name ++ u16Bytes superName ++ interfaceCount ++ interfaces.flatten ++
      fieldCount ++ fields.flatten ++ methodCount ++ methods.flatten ++ attributes)) := by
  unfold encodeBody encodeSuper encodeSource
  cases c.superName <;> cases c.sourceFile <;> simp

theorem encodes_super (superName : Option String) :
    Encodes (encodeSuper superName) (fun b index => b.IsOptionalClass index superName) := by
  cases superName with
  | none => exact Encodes.pure fun _ _ => .inl ⟨rfl, rfl⟩
  | some name => exact (encodes_classRef name).mono fun _ _ _ h => .inr ⟨h.2, name, h.1, rfl⟩

/-- The name of the source file, as an attribute adds it. -/
def decodeSource (pool : ConstantPool) (file : Option String) (attr : Attribute) :
    Except DecodeFault (Option String) :=
  match attr with
  | .sourceFile index => some <$> (pool.utf8 index).mapError .sourceFile
  | _ => pure file

theorem encodes_source (sourceFile : Option String) :
    Encodes (encodeSource sourceFile) (fun b block => ∃ attributes,
      (∀ depth, Takes (counted (Attribute.read b.table (depth + 1))) block attributes) ∧
        attributes.foldlM (decodeSource b.table) none = .ok sourceFile) := by
  cases sourceFile with
  | none => exact Encodes.pure fun _ _ => ⟨[], fun _ => takes_counted_nil _, rfl⟩
  | some file =>
      refine (encodes_utf8 "SourceFile").bind fun name => ?_
      refine (encodes_utf8 file).bind fun index => ?_
      refine (encodes_lift _).bind fun block => Encodes.pure fun b hb hblock hindex hname => ?_
      refine ⟨[.sourceFile index], fun depth => ?_, ?_⟩
      · exact takes_counted_one (takes_sourceFile (hb.table_getElem? hname) hblock)
      · simp only [List.foldlM_cons, decodeSource, hb.utf8 hindex]
        rfl

/-- The part of a class file behind the constant pool. -/
def readBody (minor major : UInt16) (pool : ConstantPool) (depth : Nat) : Reader RawClass := do
  let access ← u16
  let thisClass ← u16
  let superClass ← u16
  let interfaces ← counted u16
  let fields ← counted (RawClass.readMember pool depth RawClass.fieldFlags)
  let methods ← counted (RawClass.readMember pool depth RawClass.methodFlags)
  let attributes ← counted (Attribute.read pool depth)
  return ⟨minor, major, pool, access &&& RawClass.classFlags, thisClass, superClass, interfaces, fields, methods,
    attributes⟩

/-- A written class without the constant pool. -/
structure ClassFor (b : PoolBuilder) (c : ClassDecl) (body : Bytes) (raw : RawClass) : Prop where
  taken : ∀ depth, Takes (readBody c.minor (min c.major maxMajor) b.table (depth + 2)) body raw
  decoded : ∃ c', raw.decode = .ok c' ∧ c.Restored c'

theorem decode_rawClass {raw : RawClass} {methods : List MethodDecl}
    (hpool : raw.pool = b.table) (hname : b.table.className raw.thisClass = .ok c.name)
    (hsuper : b.IsOptionalClass raw.superClass c.superName)
    (hinterfaces : List.Forall₂ (fun name index => b.table.className index = .ok name) c.interfaces raw.interfaces)
    (hsource : raw.attributes.foldlM (decodeSource b.table) none = .ok c.sourceFile)
    (hfields : raw.fields.mapM (decodeField b.table) = .ok c.fields)
    (hmethods : raw.methods.mapM (decodeMethod b.table) = .ok methods) :
    raw.decode = .ok { c with access := raw.access, minor := raw.minor, major := raw.major, methods } := by
  have hnames : raw.interfaces.mapM (fun index => (b.table.className index).mapError DecodeFault.interfaceName) =
      .ok c.interfaces :=
    mapM_eq_ok.2 (hinterfaces.imp fun _ _ h => mapError_eq_ok.2 h).flip
  have hrest : ∀ superName : Option String, (do
      let interfaces ← raw.interfaces.mapM fun index => (b.table.className index).mapError DecodeFault.interfaceName
      let sourceFile ← raw.attributes.foldlM (decodeSource b.table) none
      let fields ← (raw.fields.mapM (decodeField b.table)).mapError DecodeFault.fields
      let methods ← (raw.methods.mapM (decodeMethod b.table)).mapError (DecodeFault.methods c.name)
      pure ({ name := c.name, superName, interfaces, access := raw.access, minor := raw.minor, major := raw.major,
              sourceFile, fields, methods } : ClassDecl)) =
        .ok { c with superName, access := raw.access, minor := raw.minor, major := raw.major, methods } := by
    intro superName
    refine bind_eq_ok.2 ⟨_, hnames, bind_eq_ok.2 ⟨_, hsource, ?_⟩⟩
    exact bind_eq_ok.2 ⟨_, mapError_eq_ok.2 hfields, bind_eq_ok.2 ⟨_, mapError_eq_ok.2 hmethods, rfl⟩⟩
  unfold RawClass.decode
  rw [hpool]
  refine bind_eq_ok.2 ⟨c.name, mapError_eq_ok.2 hname, ?_⟩
  rcases hsuper with ⟨hzero, hnone⟩ | ⟨hne, name, hclass, hsome⟩
  · rw [if_pos hzero, hnone]
    exact hrest none
  · rw [if_neg hne, hclass, hsome]
    exact hrest (some name)

theorem encodes_classBody (hflags : hasKnownFlags c = true)
    (hconsistent : ∀ m ∈ c.methods, ∀ i ∈ m.code, isConsistent i = true) :
    Encodes (encodeBody c) (fun b body => ∃ raw, ClassFor b c body raw) := by
  simp only [hasKnownFlags, Bool.and_eq_true, beq_iff_eq, List.all_eq_true] at hflags
  obtain ⟨⟨hclass, hfields⟩, hmethods⟩ := hflags
  rw [encodeBody_eq]
  refine (encodes_classRef c.name).bind fun thisClass => ?_
  refine (encodes_super c.superName).bind fun superClass => ?_
  refine (encodes_lift _).bind fun interfaceCount => ?_
  refine (encodes_classRefs c.interfaces).bind fun interfaceBlocks => ?_
  refine (encodes_lift _).bind fun fieldCount => ?_
  refine (Encodes.mapM fun f hf => (encodes_fieldDecl (hfields f hf)).mapError).bind fun fieldBlocks => ?_
  refine (encodes_lift _).bind fun methodCount => ?_
  refine (Encodes.mapM fun m hm => (encodes_methodDecl (hmethods m hm) (hconsistent m hm)).mapError).bind
    fun methodBlocks => ?_
  refine (encodes_source c.sourceFile).bind fun sourceBlock => Encodes.pure ?_
  rintro b hb ⟨attributes, hattributes, hsource⟩ hmethodBlocks hmethodCount hfieldBlocks hfieldCount
    ⟨interfaces, rfl, hinterfaces⟩ hinterfaceCount hsuper hname
  obtain ⟨hfewInterfaces, rfl⟩ := countBytes_eq_ok hinterfaceCount
  obtain ⟨hfewFields, rfl⟩ := countBytes_eq_ok hfieldCount
  obtain ⟨hfewMethods, rfl⟩ := countBytes_eq_ok hmethodCount
  obtain ⟨rawFields, htakeFields, hrawFields⟩ := exists_raws hfieldBlocks fun _ _ _ h => h.taken
  obtain ⟨rawMethods, htakeMethods, hrawMethods⟩ := exists_raws hmethodBlocks fun _ _ _ h => h.taken
  obtain ⟨restored, hrestored, hmethods'⟩ := exists_mapM_decodeMethod hrawMethods
  let raw : RawClass := ⟨c.minor, min c.major maxMajor, b.table, c.access, thisClass, superClass, interfaces, rawFields,
    rawMethods, attributes⟩
  refine ⟨raw, fun depth => ?_, _,
    @decode_rawClass b c raw restored rfl hname.1 hsuper hinterfaces hsource (mapM_decodeField hrawFields) hrestored,
    rfl, rfl, rfl, rfl, rfl, rfl, rfl, rfl, hmethods'⟩
  have htakeInterfaces : List.Forall₂ (Takes u16) (interfaces.map u16Bytes) interfaces :=
    List.forall₂_map_left_iff.2 (List.forall₂_same.2 fun index _ => takes_u16 index)
  rw [hinterfaces.length_eq] at hfewInterfaces ⊢
  rw [hrawFields.length_eq] at hfewFields ⊢
  rw [hrawMethods.length_eq] at hfewMethods ⊢
  have hbytes : ∀ access this super ci fi cf ff cm fm source : Bytes,
      access ++ this ++ super ++ ci ++ fi ++ cf ++ ff ++ cm ++ fm ++ source =
        access ++ (this ++ (super ++ ((ci ++ fi) ++ ((cf ++ ff) ++ ((cm ++ fm) ++ source))))) := by
    simp only [List.append_assoc, implies_true]
  rw [hbytes]
  refine (takes_u16 _).bind ((takes_u16 _).bind ((takes_u16 _).bind ?_))
  refine (takes_counted htakeInterfaces hfewInterfaces).bind ?_
  refine (takes_counted (htakeFields (depth + 1)) hfewFields).bind ?_
  refine (takes_counted (htakeMethods depth) hfewMethods).bind ((hattributes (depth + 1)).last ?_)
  rw [hclass]
  exact Takes.pure raw

/-- Bytes that are taken whole are a class file. -/
theorem parse?_of_takes {bytes : Bytes} {raw : RawClass} (h : ∀ depth, Takes (RawClass.reader (depth + 2)) bytes raw)
    (hlength : 2 ≤ bytes.length) : RawClass.parse? bytes = some raw := by
  have hrun := h (bytes.length - 2) []
  rw [List.append_nil, Nat.sub_add_cancel hlength] at hrun
  rw [RawClass.parse?, hrun]

theorem exists_classFor {bytes : Bytes} (hflags : hasKnownFlags c = true)
    (hconsistent : ∀ m ∈ c.methods, ∀ i ∈ m.code, isConsistent i = true) (h : encodeClass c = .ok bytes) :
    ∃ b body raw, ClassFor b c body raw ∧ RawClass.parse? bytes = some raw := by
  obtain ⟨⟨body, b⟩, hbody, h⟩ := bind_eq_ok.1 h
  obtain ⟨pool, hpool, h⟩ := bind_eq_ok.1 h
  cases h
  obtain ⟨hb, -, hfinal⟩ := encodes_classBody hflags hconsistent {} b body sound_empty hbody
  obtain ⟨raw, hraw⟩ := hfinal b hb (Extends.refl b)
  refine ⟨b, body, raw, hraw, ?_⟩
  simp only [List.append_assoc]
  refine parse?_of_takes (fun depth => ?_) ?_
  · refine (takes_u32 _).bind ((takes_u16 _).bind ((takes_u16 _).bind ?_))
    exact (takes_pool hb hpool).bind (hraw.taken depth)
  · rw [List.length_append, length_u32Bytes]
    omega

/-- A class is read back from its class file. -/
theorem decodeClass_encodeClass {bytes : Bytes} (hflags : hasKnownFlags c = true)
    (hconsistent : ∀ m ∈ c.methods, ∀ i ∈ m.code, isConsistent i = true) (h : encodeClass c = .ok bytes) :
    ∃ c', decodeClass bytes = .ok c' ∧ c.Restored c' := by
  obtain ⟨b, body, raw, hraw, hparse⟩ := exists_classFor hflags hconsistent h
  obtain ⟨c', hdecode, hrestored⟩ := hraw.decoded
  refine ⟨c', ?_, hrestored⟩
  rw [decodeClass, hparse]
  exact hdecode

end Classes

section Looping

/-- A method with a loop.  Its first handler range covers the loop, the second one is empty, and the last line marker
stands behind all instructions. -/
def looping : MethodDecl where
  name := "m"
  descriptor := "(I)V"
  access := 8
  code := [.label ⟨0⟩, .line 5, .var Opcode.iload 0, .jump Opcode.ifne ⟨0⟩, .label ⟨3⟩, .line 6,
    .simple Opcode.vreturn, .label ⟨7⟩, .line 9]
  tries := [⟨⟨0⟩, ⟨3⟩, ⟨3⟩, none⟩, ⟨⟨7⟩, ⟨7⟩, ⟨0⟩, none⟩]
  throws := ["E"]
  maxStack := 1
  maxLocals := 1

def loopingField : FieldDecl where
  name := "f"
  descriptor := "J"
  access := 8
  value := some (.long 7)

def loopingClass : ClassDecl where
  name := "A"
  superName := none
  fields := [loopingField]
  methods := [looping]

def loopingEntries : List PoolEntry :=
  [.utf8 "A", .classRef 1, .utf8 "f", .utf8 "J", .utf8 "ConstantValue", .long 7, .utf8 "m", .utf8 "(I)V",
    .utf8 "Code", .utf8 "LineNumberTable", .utf8 "Exceptions", .utf8 "E", .classRef 13]

def loopingFieldBytes : Bytes :=
  [0, 8, 0, 3, 0, 4, 0, 1, 0, 5, 0, 0, 0, 2, 0, 6]

def loopingCodeBytes : Bytes :=
  [0, 10, 0, 0, 0, 41, 0, 1, 0, 1, 0, 0, 0, 5, 26, 154, 255, 255, 177, 0, 1, 0, 0, 0, 4, 0, 4, 0, 0, 0, 1,
    0, 11, 0, 0, 0, 10, 0, 2, 0, 0, 0, 5, 0, 4, 0, 6]

def loopingThrowsBytes : Bytes :=
  [0, 12, 0, 0, 0, 4, 0, 1, 0, 14]

def loopingMethodBytes : Bytes :=
  [0, 8, 0, 8, 0, 9, 0, 2] ++ loopingCodeBytes ++ loopingThrowsBytes

def loopingBodyBytes : Bytes :=
  [0, 33, 0, 2, 0, 0, 0, 0, 0, 1] ++ loopingFieldBytes ++ [0, 1] ++ loopingMethodBytes ++ [0, 0]

def loopingPoolBytes : Bytes :=
  [0, 15, 1, 0, 1, 65, 7, 0, 1, 1, 0, 1, 102, 1, 0, 1, 74, 1, 0, 13, 67, 111, 110, 115, 116, 97, 110, 116, 86, 97,
    108, 117, 101, 5, 0, 0, 0, 0, 0, 0, 0, 7, 1, 0, 1, 109, 1, 0, 4, 40, 73, 41, 86, 1, 0, 4, 67, 111, 100, 101,
    1, 0, 15, 76, 105, 110, 101, 78, 117, 109, 98, 101, 114, 84, 97, 98, 108, 101, 1, 0, 10, 69, 120, 99, 101, 112,
    116, 105, 111, 110, 115, 1, 0, 1, 69, 7, 0, 13]

/-- The class file. -/
def loopingBytes : Bytes :=
  [202, 254, 186, 190, 0, 0, 0, 50] ++ loopingPoolBytes ++ loopingBodyBytes

theorem run_loopingField : (encodeField loopingField).run (poolOf (loopingEntries.take 2)) =
    .ok (loopingFieldBytes, poolOf (loopingEntries.take 6)) := by
  refine run_bind (run_intern_new (by decide) (by decide)) ?_
  refine run_bind (run_intern_new (by decide) (by decide)) ?_
  refine run_bind (run_intern_new (by decide) (by decide)) ?_
  exact run_bind (run_intern_new (by decide) (by decide)) rfl

/-- The body of the method asks for one entry only. -/
theorem run_loopingBody {b b' : PoolBuilder} {index : UInt16}
    (h : (utf8 "LineNumberTable").run b = .ok (index, b')) :
    (Code.encode looping).run b = .ok ([0, 1, 0, 1, 0, 0, 0, 5, 26, 154, 255, 255, 177, 0, 1, 0, 0, 0, 4, 0, 4, 0, 0,
      0, 1] ++ u16Bytes index ++ [0, 0, 0, 10, 0, 2, 0, 0, 0, 5, 0, 4, 0, 6], b') := by
  have hrun : (Code.encode looping).run b = (do
      let name ← utf8 "LineNumberTable"
      pure ([0, 1, 0, 1, 0, 0, 0, 5, 26, 154, 255, 255, 177, 0, 1, 0, 0, 0, 4, 0, 4, 0, 0, 0, 1] ++ u16Bytes name ++
        [0, 0, 0, 10, 0, 2, 0, 0, 0, 5, 0, 4, 0, 6])).run b := rfl
  rw [hrun]
  exact run_bind h rfl

theorem run_loopingCode : (encodeCodePart looping).run (poolOf (loopingEntries.take 8)) =
    .ok ([loopingCodeBytes], poolOf (loopingEntries.take 10)) := by
  refine run_bind (run_intern_new (by decide) (by decide)) ?_
  refine run_bind (run_loopingBody (run_intern_new (by decide) (by decide))) ?_
  exact run_bind (run_lift rfl) rfl

theorem run_loopingThrows : (encodeThrowsPart looping).run (poolOf (loopingEntries.take 10)) =
    .ok ([loopingThrowsBytes], poolOf loopingEntries) := by
  have hclass : (classRef "E").run (poolOf (loopingEntries.take 11)) = .ok (14, poolOf loopingEntries) :=
    run_bind (run_intern_new (by decide) (by decide)) (run_intern_new (by decide) (by decide))
  refine run_bind (run_intern_new (by decide) (by decide)) (run_bind (run_lift rfl) ?_)
  exact run_bind (run_bind (run_bind hclass rfl) rfl) (run_bind (run_lift rfl) rfl)

theorem run_loopingMethod : (encodeMethod looping).run (poolOf (loopingEntries.take 6)) =
    .ok (loopingMethodBytes, poolOf loopingEntries) := by
  rw [encodeMethod_eq]
  refine run_bind (run_intern_new (by decide) (by decide)) ?_
  refine run_bind (run_intern_new (by decide) (by decide)) ?_
  exact run_bind run_loopingCode (run_bind run_loopingThrows rfl)

theorem run_loopingClass : (encodeBody loopingClass).run {} = .ok (loopingBodyBytes, poolOf loopingEntries) := by
  have hthis : (classRef "A").run (poolOf []) = .ok (2, poolOf (loopingEntries.take 2)) :=
    run_bind (run_intern_new (by decide) (by decide)) (run_intern_new (by decide) (by decide))
  rw [encodeBody_eq]
  refine run_bind hthis (run_bind rfl (run_bind (run_lift rfl) (run_bind rfl (run_bind (run_lift rfl) ?_))))
  refine run_bind (run_bind (run_mapError run_loopingField) rfl) (run_bind (run_lift rfl) ?_)
  exact run_bind (run_bind (run_mapError run_loopingMethod) rfl) (run_bind rfl rfl)

theorem encodeClass_looping : encodeClass loopingClass = .ok loopingBytes :=
  bind_eq_ok.2 ⟨_, run_loopingClass, bind_eq_ok.2 ⟨loopingPoolBytes, rfl, rfl⟩⟩

theorem looping_restored : hasKnownFlags loopingClass = true ∧
    (∀ m ∈ loopingClass.methods, ∀ i ∈ m.code, isConsistent i = true) ∧
    encodeClass loopingClass = .ok loopingBytes ∧
    ∃ c', decodeClass loopingBytes = .ok c' ∧ loopingClass.Restored c' :=
  ⟨by decide, by decide, encodeClass_looping,
    decodeClass_encodeClass (by decide) (by decide) encodeClass_looping⟩

/-- The empty handler range and the last line marker are lost, although every label stands once. -/
theorem looping_loses_range : hasKnownFlags loopingClass = true ∧
    (∀ m ∈ loopingClass.methods, LabelsOnce m.code ∧ ∀ i ∈ m.code, isConsistent i = true) ∧
    encodeClass loopingClass = .ok loopingBytes ∧
    ∃ c' m', decodeClass loopingBytes = .ok c' ∧ c'.methods = [m'] ∧
      (outline looping.code looping.tries).ranges.length = 2 ∧ (outline m'.code m'.tries).ranges.length = 1 ∧
      (outline looping.code looping.tries).lines.length = 3 ∧ (outline m'.code m'.tries).lines.length = 2 := by
  refine ⟨by decide, by decide, encodeClass_looping, ?_⟩
  obtain ⟨b, body, raw, hraw, hparse⟩ := exists_classFor (by decide) (by decide) encodeClass_looping
  obtain ⟨c', hdecode, hrestored⟩ := hraw.decoded
  obtain ⟨m', rest, hm', hrest, hmethods⟩ := List.forall₂_cons_left_iff.1 hrestored.methods
  cases hrest
  refine ⟨c', m', ?_, hmethods, by decide, ?_, by decide, ?_⟩
  · rw [decodeClass, hparse]
    exact hdecode
  · rw [(hm'.body rfl).2.2]
    decide
  · rw [(hm'.body rfl).2.2]
    decide

end Looping

end ClassFile

end Unscramble
