/-
What a constant pool is asked for is what its indexes lead to.  A request is answered with an index; whatever is asked
for afterwards, in the finished pool the index leads to what was requested, and asking again gives it again.  So
requests of one kind have the same index only where they are the same, and all of this is still so after the pool was
written and read.
-/
import Unscramble.Proofs.PoolReading

namespace Unscramble.ClassFile

/-- What a constant pool can be asked for. -/
inductive Request where
  | utf8 (text : String)
  | classRef (name : String)
  | member (kind : MemberKind) (ref : MemberRef)
  | loadable (value : Constant)
deriving DecidableEq, Repr

namespace Request

/-- The index of what is requested. -/
def index : Request → Encoder UInt16
  | .utf8 text => PoolBuilder.utf8 text
  | .classRef name => PoolBuilder.classRef name
  | .member kind ref => PoolBuilder.member kind ref
  | .loadable value => PoolBuilder.loadable value

/-- The index leads to what is requested.  Of a member the entry itself has the kind. -/
def Resolves (pool : ConstantPool) : Request → UInt16 → Prop
  | .utf8 text, i => pool.utf8 i = .ok text
  | .classRef name, i => pool.className i = .ok name
  | .member kind ref, i => pool.memberRef i = .ok (ref, kind == .interfaceMethod) ∧
      ∃ owner pair, pool[i.toNat]? = some (.member kind owner pair)
  | .loadable value, i => pool.constant i = .ok value

/-- Whether two requests ask for the same kind of thing. -/
def sameKind : Request → Request → Bool
  | utf8 _, utf8 _ | classRef _, classRef _ | member _ _, member _ _ | loadable _, loadable _ => true
  | _, _ => false

variable {r r' : Request} {requests : List Request} {i j : UInt16} {pool : ConstantPool}

/-- An index leads to one thing of each kind. -/
theorem Resolves.unique (h : Resolves pool r i) (h' : Resolves pool r' i) (hkind : sameKind r r' = true) : r = r' := by
  cases r with
  | utf8 text =>
      cases r' with
      | utf8 text' => exact congrArg Request.utf8 (Except.ok.inj (h.symm.trans h'))
      | classRef | member | loadable => cases hkind
  | classRef name =>
      cases r' with
      | classRef name' => exact congrArg Request.classRef (Except.ok.inj (h.symm.trans h'))
      | utf8 | member | loadable => cases hkind
  | member kind ref =>
      cases r' with
      | member kind' ref' =>
          obtain ⟨href, _, _, hentry⟩ := h
          obtain ⟨href', _, _, hentry'⟩ := h'
          obtain ⟨rfl, -, -⟩ := PoolEntry.member.inj (Option.some.inj (hentry.symm.trans hentry'))
          obtain ⟨rfl, -⟩ := Prod.mk.inj (Except.ok.inj (href.symm.trans href'))
          rfl
      | utf8 | classRef | loadable => cases hkind
  | loadable value =>
      cases r' with
      | loadable value' => exact congrArg Request.loadable (Except.ok.inj (h.symm.trans h'))
      | utf8 | classRef | member => cases hkind

/-- The index leads to what was requested, and the same request gives it again. -/
theorem encodes_index (r : Request) :
    Encodes r.index (fun b i => Resolves b.table r i ∧ r.index.run b = .ok (i, b)) := by
  cases r with
  | utf8 text =>
      refine (PoolBuilder.encodes_utf8 text).mono fun b i hb hi => ?_
      exact ⟨hb.utf8 hi, PoolBuilder.intern_of_some hi⟩
  | classRef name =>
      refine (PoolBuilder.encodes_isClass name).mono fun b i hb hi => ?_
      exact ⟨hi.className hb, hi.run_classRef⟩
  | member kind ref =>
      refine (PoolBuilder.encodes_isMember kind ref).mono fun b i hb hi => ⟨⟨hi.memberRef hb, ?_⟩, hi.run_member⟩
      obtain ⟨owner, name, descriptor, pair, -, -, -, -, hentry⟩ := hi
      exact ⟨owner, pair, hb.table_getElem? hentry⟩
  | loadable value => exact PoolBuilder.encodes_loadable value

end Request

namespace PoolBuilder

variable {b : PoolBuilder} {block : Bytes}

theorem size_table (b : PoolBuilder) : b.table.size = 1 + total (b.entries.map PoolEntry.slots) := by
  have hcells : ∀ entries : List PoolEntry,
      (entries.reverse.flatMap PoolEntry.cells).length = total (entries.map PoolEntry.slots) := by
    intro entries
    induction entries with
    | nil => rfl
    | cons e rest ih =>
        rw [List.reverse_cons, List.flatMap_append, List.length_append, ih, List.flatMap_singleton, e.length_cells,
          List.map_cons, total_cons, Nat.add_comm]
  rw [table, List.size_toArray, pool, List.length_cons, hcells, Nat.add_comm]

/-- An entry of two slots is followed by an empty one. -/
theorem empty_of_slots {entries : List PoolEntry} {i : Nat} {e : PoolEntry}
    (h : (entries.flatMap PoolEntry.cells)[i]? = some e) (hslots : e.slots = 2) :
    (entries.flatMap PoolEntry.cells)[i + 1]? = some .empty := by
  induction entries generalizing i with
  | nil => cases h
  | cons first rest ih =>
      rw [List.flatMap_cons] at h ⊢
      rcases first.slots_eq with hfirst | hfirst
      · rw [PoolEntry.cells, hfirst] at h ⊢
        cases i with
        | zero =>
            obtain rfl := Option.some.inj h
            omega
        | succ i => exact ih h
      · rw [PoolEntry.cells, hfirst] at h ⊢
        rcases i with _ | _ | i
        · rfl
        · obtain rfl := Option.some.inj h
          cases hslots
        · exact ih h

theorem empty_behind (b : PoolBuilder) {i : Nat} {e : PoolEntry} (h : b.table[i]? = some e) (hslots : e.slots = 2) :
    b.table[i + 1]? = some .empty := by
  rw [table, List.getElem?_toArray, pool] at h ⊢
  cases i with
  | zero =>
      obtain rfl := Option.some.inj h
      cases hslots
  | succ i => exact empty_of_slots h hslots

/-- The written pool starts with the number of its slots, the first one included. -/
theorem u16At?_encode (h : b.encode = .ok block) : u16At? block 0 = some b.next := by
  obtain ⟨blocks, -, hblock⟩ := bind_eq_ok.1 h
  obtain rfl := Except.ok.inj hblock
  exact congrArg some (valueOf_u16Bytes b.next)

end PoolBuilder

open PoolBuilder

variable {requests : List Request} {indexes : List UInt16} {b : PoolBuilder} {block : Bytes}

/-- After any requests to a new pool, the written pool is read back with an empty first slot, and with an empty one
behind every number of eight bytes.  Its bytes start with the number of its slots.  Every index leads to what it was
given out for, and two requests of one kind have the same index if and only if they are the same. -/
theorem indexes_resolve (hrun : (requests.mapM Request.index).run {} = .ok (indexes, b))
    (hwrite : b.encode = .ok block) :
    ∃ pool : ConstantPool, Reader.Takes ConstantPool.read block pool ∧
      (u16At? block 0).map UInt16.toNat = some pool.size ∧
      pool.size = 1 + total (b.entries.map PoolEntry.slots) ∧ pool.size ≤ 65535 ∧ pool[0]? = some .empty ∧
      (∀ i e, pool[i]? = some e → e.slots = 2 → pool[i + 1]? = some .empty) ∧
      List.Forall₂ (Request.Resolves pool) requests indexes ∧
      ∀ (k l : Nat) (r r' : Request) (i j : UInt16), requests[k]? = some r → indexes[k]? = some i →
        requests[l]? = some r' → indexes[l]? = some j → Request.sameKind r r' = true → (i = j ↔ r = r') := by
  obtain ⟨hb, -, hfinal⟩ := Encodes.mapM (fun r _ => r.encodes_index) {} b indexes sound_empty hrun
  have hall := hfinal b hb (Extends.refl b)
  have hat : ∀ (k : Nat) (r : Request) (i : UInt16), requests[k]? = some r → indexes[k]? = some i →
      Request.Resolves b.table r i ∧ r.index.run b = .ok (i, b) := by
    intro k r i hr hi
    obtain ⟨found, hfound, hr⟩ := forall₂_getElem? hall hr
    obtain rfl := Option.some.inj (hi.symm.trans hfound)
    exact hr
  have hcount : b.next.toNat = b.table.size := hb.next_eq
  refine ⟨b.table, takes_pool hb hwrite, ?_, b.size_table, ?_, rfl, ?_, hall.imp fun _ _ h => h.1, ?_⟩
  · rw [u16At?_encode hwrite, ← hcount]
    rfl
  · have hlt := b.next.toNat_lt
    omega
  · exact fun i e he hslots => b.empty_behind he hslots
  · intro k l r r' i j hr hi hr' hj hkind
    obtain ⟨hresolves, hagain⟩ := hat k r i hr hi
    obtain ⟨hresolves', hagain'⟩ := hat l r' j hr' hj
    constructor
    · rintro rfl
      exact hresolves.unique hresolves' hkind
    · rintro rfl
      rw [hagain] at hagain'
      exact (Prod.mk.inj (Except.ok.inj hagain')).1

section Requested

/-- Two numbers of eight bytes, a method of an interface, and a text that is asked for three times. -/
def requested : List Request :=
  [.utf8 "x", .loadable (.long 5), .loadable (.double 0), .member .interfaceMethod ⟨"A", "f", "()V"⟩, .utf8 "x",
    .loadable (.string "x")]

def requestedEntries : List PoolEntry :=
  [.utf8 "x", .long 5, .double 0, .utf8 "A", .classRef 6, .utf8 "f", .utf8 "()V", .nameAndType 8 9,
    .member .interfaceMethod 7 10, .string 1]

def requestedBytes : Bytes :=
  [0, 13, 1, 0, 1, 120, 5, 0, 0, 0, 0, 0, 0, 0, 5, 6, 0, 0, 0, 0, 0, 0, 0, 0, 1, 0, 1, 65, 7, 0, 6, 1, 0, 1, 102,
    1, 0, 3, 40, 41, 86, 12, 0, 8, 0, 9, 11, 0, 7, 0, 10, 8, 0, 1]

theorem run_requested : (requested.mapM Request.index).run {} =
    .ok ([1, 2, 4, 11, 1, 12], poolOf requestedEntries) := by
  have hmember : (member .interfaceMethod ⟨"A", "f", "()V"⟩).run (poolOf (requestedEntries.take 3)) =
      .ok (11, poolOf (requestedEntries.take 9)) := by
    refine run_bind (run_bind (run_intern_new (by decide) (by decide)) (run_intern_new (by decide) (by decide))) ?_
    refine run_bind (run_intern_new (by decide) (by decide)) (run_bind (run_intern_new (by decide) (by decide)) ?_)
    exact run_bind (run_intern_new (by decide) (by decide)) (run_intern_new (by decide) (by decide))
  have hagain : (utf8 "x").run (poolOf (requestedEntries.take 9)) = .ok (1, poolOf (requestedEntries.take 9)) :=
    run_intern_old [] (by decide)
  have hstring : (loadable (.string "x")).run (poolOf (requestedEntries.take 9)) =
      .ok (12, poolOf requestedEntries) :=
    run_bind hagain (run_intern_new (by decide) (by decide))
  have hfirst : (utf8 "x").run (poolOf []) = .ok (1, poolOf [.utf8 "x"]) := run_intern_new (by decide) (by decide)
  refine run_mapM_cons hfirst ?_
  refine run_mapM_cons (run_intern_new (by decide) (by decide)) ?_
  refine run_mapM_cons (run_intern_new (by decide) (by decide)) ?_
  exact run_mapM_cons hmember (run_mapM_cons hagain (run_mapM_cons hstring rfl))

theorem requested_resolve :
    (requested.mapM Request.index).run {} = .ok ([1, 2, 4, 11, 1, 12], poolOf requestedEntries) ∧
    (poolOf requestedEntries).encode = .ok requestedBytes ∧
    ∃ pool : ConstantPool, Reader.Takes ConstantPool.read requestedBytes pool ∧ pool.size = 13 ∧
      List.Forall₂ (Request.Resolves pool) requested [1, 2, 4, 11, 1, 12] := by
  have hwrite : (poolOf requestedEntries).encode = .ok requestedBytes := rfl
  obtain ⟨pool, htakes, -, hsize, -, -, -, hall, -⟩ := indexes_resolve run_requested hwrite
  exact ⟨run_requested, hwrite, pool, htakes, hsize, hall⟩

end Requested

end Unscramble.ClassFile
