/-
Computations that add to a constant pool.  Entries keep their indexes, so what such a computation gives is
stated about every pool that it may still grow into.  The rules for sequences of computations carry these
statements to the end, where the pool is complete.
-/
import Mathlib.Data.List.Forall2
import Mathlib.Data.List.Induction
import Unscramble.ClassFile.PoolBuilder
import Unscramble.Proofs.Results

namespace Unscramble.ClassFile

/-- Entries that are written; the others fill slots. -/
def PoolEntry.IsWritten (e : PoolEntry) : Prop :=
  e ≠ .empty ∧ e ≠ .other

/-- An entry with the empty slots that follow it. -/
def PoolEntry.cells (e : PoolEntry) : List PoolEntry :=
  e :: List.replicate (e.slots - 1) .empty

theorem PoolEntry.slots_eq (e : PoolEntry) : e.slots = 1 ∨ e.slots = 2 := by
  cases e <;> simp [slots]

theorem PoolEntry.length_cells (e : PoolEntry) : e.cells.length = e.slots := by
  rcases e.slots_eq with h | h <;> simp [cells, h]

namespace PoolBuilder

/-- The slots of the pool. -/
def pool (b : PoolBuilder) : List PoolEntry :=
  .empty :: b.entries.reverse.flatMap PoolEntry.cells

/-- The invariant of a pool under construction. -/
structure Sound (b : PoolBuilder) : Prop where
  next_eq : b.next.toNat = b.pool.length
  found : ∀ (e : PoolEntry) (i : UInt16), b.indexes[e]? = some i → b.pool[i.toNat]? = some e
  written : ∀ e ∈ b.entries, e.IsWritten

/-- All entries of the first pool have the same index in the second one. -/
def Extends (b b' : PoolBuilder) : Prop :=
  ∀ (e : PoolEntry) (i : UInt16), b.indexes[e]? = some i → b'.indexes[e]? = some i

theorem Extends.refl (b : PoolBuilder) : b.Extends b :=
  fun _ _ h => h

theorem Extends.trans {b b' b'' : PoolBuilder} (h : b.Extends b') (h' : b'.Extends b'') :
    b.Extends b'' :=
  fun e i hi => h' e i (h e i hi)

theorem sound_empty : Sound {} := by
  refine ⟨rfl, ?_, ?_⟩
  · intro e i h
    simp at h
  · intro e h
    cases h

end PoolBuilder

open PoolBuilder

section Rules

variable {α β : Type}

/-- The computation keeps the pool sound and gives a value for which `post` holds in every sound pool
that grows out of the one it leaves. -/
def Encodes (x : Encoder α) (post : PoolBuilder → α → Prop) : Prop :=
  ∀ b b' a, b.Sound → x.run b = .ok (a, b') →
    b'.Sound ∧ b.Extends b' ∧ ∀ final, final.Sound → b'.Extends final → post final a

variable {x : Encoder α} {f : α → Encoder β} {post : PoolBuilder → α → Prop}
  {post' : PoolBuilder → β → Prop}

theorem Encodes.mono {weaker : PoolBuilder → α → Prop} (h : Encodes x post)
    (hpost : ∀ b a, b.Sound → post b a → weaker b a) : Encodes x weaker := by
  intro b b' a hb hrun
  obtain ⟨hb', hext, hfinal⟩ := h b b' a hb hrun
  exact ⟨hb', hext, fun final hsound hle => hpost final a hsound (hfinal final hsound hle)⟩

theorem Encodes.pure {a : α} (h : ∀ b, b.Sound → post b a) : Encodes (pure a) post := by
  intro b b' a' hb hrun
  cases hrun
  exact ⟨hb, Extends.refl b, fun final hsound _ => h final hsound⟩

theorem Encodes.bind' (h : Encodes x post)
    (hnext : ∀ b b' a, b.Sound → x.run b = .ok (a, b') → Encodes (f a) (fun b r => post b a → post' b r)) :
    Encodes (x >>= f) post' := by
  intro b b'' r hb hrun
  rw [StateT.run_bind] at hrun
  cases hx : x.run b with
  | error fault => rw [hx] at hrun; cases hrun
  | ok result =>
      obtain ⟨a, b'⟩ := result
      rw [hx] at hrun
      obtain ⟨hb', hext, hfinal⟩ := h b b' a hb hx
      obtain ⟨hb'', hext', hfinal'⟩ := hnext b b' a hb hx b' b'' r hb' hrun
      refine ⟨hb'', hext.trans hext', fun final hsound hle => ?_⟩
      exact hfinal' final hsound hle (hfinal final hsound (hext'.trans hle))

theorem Encodes.bind (h : Encodes x post)
    (hnext : ∀ a, Encodes (f a) (fun b r => post b a → post' b r)) : Encodes (x >>= f) post' :=
  h.bind' fun _ _ a _ _ => hnext a

/-- The rest of a computation may rely on what holds of the value in every pool. -/
theorem Encodes.bind_of {always : α → Prop} (h : Encodes x (fun b a => always a ∧ post b a))
    (hnext : ∀ a, always a → Encodes (f a) (fun b r => post b a → post' b r)) : Encodes (x >>= f) post' := by
  refine (h.mono fun _ _ _ => And.right).bind' fun b b' a hb hx => ?_
  obtain ⟨hb', -, hfinal⟩ := h b b' a hb hx
  exact hnext a (hfinal b' hb' (Extends.refl b')).1

theorem Encodes.throw_bind {fault : EncodeFault} : Encodes (MonadExcept.throw fault >>= f) post' := by
  intro b b' a _ hrun
  cases hrun

theorem encodes_lift (result : Except EncodeFault α) :
    Encodes (liftM result) (fun _ a => result = .ok a) := by
  intro b b' a hb hrun
  cases result with
  | error fault => cases hrun
  | ok value =>
      cases hrun
      exact ⟨hb, Extends.refl b, fun _ _ _ => rfl⟩

theorem Encodes.mapError {wrap : EncodeFault → EncodeFault} (h : Encodes x post) :
    Encodes (fun b => (x b).mapError wrap) post := by
  intro b b' a hb hrun
  refine h b b' a hb ?_
  show x b = _
  change (x b).mapError wrap = _ at hrun
  cases hx : x b with
  | error fault => rw [hx] at hrun; cases hrun
  | ok result => rw [hx] at hrun; exact hrun

/-- What holds of every item, one after another. -/
theorem Encodes.mapM {items : List α} {rel : PoolBuilder → α → β → Prop}
    (h : ∀ a ∈ items, Encodes (f a) (fun b => rel b a)) :
    Encodes (items.mapM f) (fun b results => List.Forall₂ (rel b) items results) := by
  induction items with
  | nil => exact Encodes.pure fun _ _ => .nil
  | cons a items ih =>
      rw [List.mapM_cons]
      refine (h a List.mem_cons_self).bind fun first => ?_
      refine (ih fun a' ha' => h a' (List.mem_cons_of_mem a ha')).bind fun rest => ?_
      exact Encodes.pure fun b _ hrest hfirst => .cons hfirst hrest

end Rules

section Running

variable {α β : Type} {b b' b'' : PoolBuilder} {a : α}

theorem run_bind {x : Encoder α} {f : α → Encoder β} {r : β} (hx : x.run b = .ok (a, b'))
    (hf : (f a).run b' = .ok (r, b'')) : (x >>= f).run b = .ok (r, b'') := by
  rw [StateT.run_bind, hx]
  exact hf

theorem run_mapM_cons {x : α → Encoder β} {rest : List α} {r : β} {results : List β} (hx : (x a).run b = .ok (r, b'))
    (hrest : (rest.mapM x).run b' = .ok (results, b'')) : ((a :: rest).mapM x).run b = .ok (r :: results, b'') := by
  rw [List.mapM_cons]
  exact run_bind hx (run_bind hrest rfl)

theorem run_lift {result : Except EncodeFault α} (h : result = .ok a) :
    (liftM result : Encoder α).run b = .ok (a, b) := by
  rw [h]
  rfl

theorem run_mapError {x : Encoder α} {wrap : EncodeFault → EncodeFault} (h : x.run b = .ok (a, b')) :
    StateT.run (fun b => (x b).mapError wrap : Encoder α) b = .ok (a, b') :=
  mapError_eq_ok.2 h

end Running

namespace PoolBuilder

theorem Sound.ne_zero {b : PoolBuilder} (hb : b.Sound) {e : PoolEntry} {i : UInt16}
    (h : b.indexes[e]? = some i) (he : e.IsWritten) : i ≠ 0 := by
  rintro rfl
  have hfound := hb.found e 0 h
  exact he.1 (by simpa [pool] using hfound.symm)

/-- The pool with one more entry. -/
def add (b : PoolBuilder) (e : PoolEntry) : PoolBuilder where
  entries := e :: b.entries
  indexes := b.indexes.insert e b.next
  next := b.next + UInt16.ofNat e.slots

theorem pool_add (b : PoolBuilder) (e : PoolEntry) : (b.add e).pool = b.pool ++ e.cells := by
  simp [pool, add]

theorem Sound.add {b : PoolBuilder} (hb : b.Sound) {e : PoolEntry} (he : e.IsWritten)
    (hroom : b.next.toNat + e.slots ≤ 65535) : (b.add e).Sound := by
  refine ⟨?_, ?_, ?_⟩
  · rw [pool_add, List.length_append, ← hb.next_eq, e.length_cells, PoolBuilder.add, UInt16.toNat_add,
      UInt16.toNat_ofNat']
    omega
  · intro e' i h
    rw [PoolBuilder.add, Std.HashMap.getElem?_insert] at h
    rw [pool_add]
    split at h
    · rename_i heq
      obtain rfl := eq_of_beq heq
      injection h with h
      rw [← h, hb.next_eq, List.getElem?_append_right (Nat.le_refl _), Nat.sub_self]
      rfl
    · have hfound := hb.found e' i h
      rw [List.getElem?_append_left (List.getElem?_eq_some_iff.1 hfound).1, hfound]
  · intro e' h
    rcases List.mem_cons.1 h with rfl | h
    · exact he
    · exact hb.written e' h

theorem extends_add {b : PoolBuilder} {e : PoolEntry} (h : b.indexes[e]? = none) :
    b.Extends (b.add e) := by
  intro e' i hi
  rw [PoolBuilder.add, Std.HashMap.getElem?_insert, if_neg, hi]
  intro heq
  rw [eq_of_beq heq, hi] at h
  cases h

theorem intern_of_some {b : PoolBuilder} {e : PoolEntry} {i : UInt16}
    (h : b.indexes[e]? = some i) : (intern e).run b = .ok (i, b) := by
  simp only [intern, StateT.run_bind, StateT.run_get, pure_bind, h]
  rfl

theorem intern_of_none {b : PoolBuilder} {e : PoolEntry} (h : b.indexes[e]? = none) :
    (intern e).run b =
      if 65535 < b.next.toNat + e.slots then .error .poolOverflow else .ok (b.next, b.add e) := by
  simp only [intern, StateT.run_bind, StateT.run_get, pure_bind, h]
  split <;> rfl

theorem encodes_intern {e : PoolEntry} (he : e.IsWritten) :
    Encodes (intern e) (fun b i => b.indexes[e]? = some i) := by
  intro b b' i hb hrun
  cases h : b.indexes[e]? with
  | some index =>
      rw [intern_of_some h] at hrun
      cases hrun
      exact ⟨hb, Extends.refl b, fun final _ hle => hle e i h⟩
  | none =>
      rw [intern_of_none h] at hrun
      split at hrun
      · cases hrun
      · cases hrun
        refine ⟨hb.add he (by omega), extends_add h, fun final _ hle => hle e b.next ?_⟩
        exact Std.HashMap.getElem?_insert_self

section Lookups

variable {b : PoolBuilder} {i : UInt16}

/-- The pool as a reader finds it. -/
def table (b : PoolBuilder) : ConstantPool :=
  b.pool.toArray

theorem Sound.table_getElem? (hb : b.Sound) {e : PoolEntry} (h : b.indexes[e]? = some i) :
    b.table[i.toNat]? = some e := by
  rw [table, List.getElem?_toArray]
  exact hb.found e i h

theorem Sound.utf8 (hb : b.Sound) {text : String} (h : b.indexes[PoolEntry.utf8 text]? = some i) :
    b.table.utf8 i = .ok text := by
  simp only [ConstantPool.utf8, hb.table_getElem? h]

theorem Sound.className (hb : b.Sound) {name : String} {n : UInt16}
    (hname : b.indexes[PoolEntry.utf8 name]? = some n)
    (h : b.indexes[PoolEntry.classRef n]? = some i) : b.table.className i = .ok name := by
  simp only [ConstantPool.className, hb.table_getElem? h, hb.utf8 hname]

end Lookups

section Entries

variable {b : PoolBuilder} {i : UInt16} {name : String} {kind : MemberKind} {ref : MemberRef}

theorem encodes_utf8 (text : String) :
    Encodes (utf8 text) (fun b i => b.indexes[PoolEntry.utf8 text]? = some i) :=
  encodes_intern (by simp [PoolEntry.IsWritten])

/-- The index is that of the class with this name. -/
def IsClass (b : PoolBuilder) (name : String) (i : UInt16) : Prop :=
  ∃ n, b.indexes[PoolEntry.utf8 name]? = some n ∧ b.indexes[PoolEntry.classRef n]? = some i

/-- The index is that of the reference to the member. -/
def IsMember (b : PoolBuilder) (kind : MemberKind) (ref : MemberRef) (i : UInt16) : Prop :=
  ∃ owner name descriptor pair, b.IsClass ref.owner owner ∧ b.indexes[PoolEntry.utf8 ref.name]? = some name ∧
    b.indexes[PoolEntry.utf8 ref.descriptor]? = some descriptor ∧
    b.indexes[PoolEntry.nameAndType name descriptor]? = some pair ∧
    b.indexes[PoolEntry.member kind owner pair]? = some i

theorem encodes_isClass (name : String) : Encodes (classRef name) (fun b i => b.IsClass name i) := by
  refine (encodes_utf8 name).bind fun n => ?_
  refine (encodes_intern (by simp [PoolEntry.IsWritten])).mono fun b i _ hi hname => ?_
  exact ⟨n, hname, hi⟩

theorem encodes_isMember (kind : MemberKind) (ref : MemberRef) :
    Encodes (member kind ref) (fun b i => b.IsMember kind ref i) := by
  refine (encodes_isClass ref.owner).bind fun owner => ?_
  refine (encodes_utf8 ref.name).bind fun name => ?_
  refine (encodes_utf8 ref.descriptor).bind fun descriptor => ?_
  refine (encodes_intern (by simp [PoolEntry.IsWritten])).bind fun pair => ?_
  refine (encodes_intern (by simp [PoolEntry.IsWritten])).mono ?_
  intro b i _ hi hpair hdescriptor hname howner
  exact ⟨owner, name, descriptor, pair, howner, hname, hdescriptor, hpair, hi⟩

theorem IsClass.className (hb : b.Sound) (h : b.IsClass name i) : b.table.className i = .ok name := by
  obtain ⟨n, hname, hi⟩ := h
  exact hb.className hname hi

/-- Asking for the class again gives the same index. -/
theorem IsClass.run_classRef (h : b.IsClass name i) : (classRef name).run b = .ok (i, b) := by
  obtain ⟨n, hname, hi⟩ := h
  exact run_bind (intern_of_some hname) (intern_of_some hi)

theorem IsMember.memberRef (hb : b.Sound) (h : b.IsMember kind ref i) :
    b.table.memberRef i = .ok (ref, kind == .interfaceMethod) := by
  obtain ⟨owner, name, descriptor, pair, howner, hname, hdescriptor, hpair, hi⟩ := h
  simp only [ConstantPool.memberRef, hb.table_getElem? hi, howner.className hb, hb.table_getElem? hpair,
    hb.utf8 hname, hb.utf8 hdescriptor]
  rfl

/-- Asking for the member again gives the same index. -/
theorem IsMember.run_member (h : b.IsMember kind ref i) : (member kind ref).run b = .ok (i, b) := by
  obtain ⟨owner, name, descriptor, pair, howner, hname, hdescriptor, hpair, hi⟩ := h
  refine run_bind howner.run_classRef (run_bind (intern_of_some hname) (run_bind (intern_of_some hdescriptor) ?_))
  exact run_bind (intern_of_some hpair) (intern_of_some hi)

/-- The index leads to the class; 0 never does. -/
theorem encodes_classRef (name : String) :
    Encodes (classRef name) (fun b i => b.table.className i = .ok name ∧ i ≠ 0) := by
  refine (encodes_isClass name).mono fun b i hb h => ⟨h.className hb, ?_⟩
  obtain ⟨n, -, hi⟩ := h
  exact hb.ne_zero hi (by simp [PoolEntry.IsWritten])

/-- The index leads to the class, or is 0 where there is none. -/
def IsOptionalClass (b : PoolBuilder) (index : UInt16) (name? : Option String) : Prop :=
  (index = 0 ∧ name? = none) ∨ index ≠ 0 ∧ ∃ name, b.table.className index = .ok name ∧ name? = some name

theorem encodes_member (kind : MemberKind) (ref : MemberRef) :
    Encodes (member kind ref)
      (fun b i => b.table.memberRef i = .ok (ref, kind == .interfaceMethod)) :=
  (encodes_isMember kind ref).mono fun _ _ hb h => h.memberRef hb

/-- The index leads to the constant, and asking for the constant again gives the same index. -/
theorem encodes_loadable (value : Constant) :
    Encodes (loadable value)
      (fun b i => b.table.constant i = .ok value ∧ (loadable value).run b = .ok (i, b)) := by
  cases value with
  | int value =>
      refine (encodes_intern (by simp [PoolEntry.IsWritten])).mono fun b i hb hi => ?_
      exact ⟨by simp only [ConstantPool.constant, hb.table_getElem? hi], intern_of_some hi⟩
  | float bits =>
      refine (encodes_intern (by simp [PoolEntry.IsWritten])).mono fun b i hb hi => ?_
      exact ⟨by simp only [ConstantPool.constant, hb.table_getElem? hi], intern_of_some hi⟩
  | long value =>
      refine (encodes_intern (by simp [PoolEntry.IsWritten])).mono fun b i hb hi => ?_
      exact ⟨by simp only [ConstantPool.constant, hb.table_getElem? hi], intern_of_some hi⟩
  | double bits =>
      refine (encodes_intern (by simp [PoolEntry.IsWritten])).mono fun b i hb hi => ?_
      exact ⟨by simp only [ConstantPool.constant, hb.table_getElem? hi], intern_of_some hi⟩
  | string text =>
      refine (encodes_utf8 text).bind fun n => ?_
      refine (encodes_intern (by simp [PoolEntry.IsWritten])).mono fun b i hb hi htext => ?_
      refine ⟨by simp only [ConstantPool.constant, hb.table_getElem? hi, hb.utf8 htext, Except.map], ?_⟩
      exact run_bind (intern_of_some htext) (intern_of_some hi)
  | classRef name =>
      refine (encodes_isClass name).mono fun b i hb h => ⟨?_, h.run_classRef⟩
      obtain ⟨n, hname, hi⟩ := h
      simp only [ConstantPool.constant, hb.table_getElem? hi, hb.utf8 hname, Except.map]

end Entries

end PoolBuilder

section Listed

/-- A pool with these entries, added one after another. -/
def poolOf (entries : List PoolEntry) : PoolBuilder :=
  entries.foldl add {}

theorem run_intern_new {entries : List PoolEntry} {e : PoolEntry} (h : e ∉ entries)
    (hroom : (poolOf entries).next.toNat + e.slots ≤ 65535) :
    (intern e).run (poolOf entries) = .ok ((poolOf entries).next, poolOf (entries ++ [e])) := by
  have hnone : (poolOf entries).indexes[e]? = none := by
    clear hroom
    induction entries using List.reverseRecOn with
    | nil => simp [poolOf]
    | append_singleton entries last ih =>
        rw [List.mem_append, not_or, List.mem_singleton] at h
        have hlast : (last == e) = false := beq_false_of_ne (Ne.symm h.2)
        rw [poolOf, List.foldl_append, List.foldl_cons, List.foldl_nil, add, Std.HashMap.getElem?_insert, hlast]
        exact ih h.1
  rw [intern_of_none hnone, if_neg (by omega), poolOf, poolOf, List.foldl_append]
  rfl

/-- An entry of the list keeps the index that was free when it was added. -/
theorem run_intern_old (before : List PoolEntry) {after : List PoolEntry} {e : PoolEntry} (h : e ∉ after) :
    (intern e).run (poolOf (before ++ e :: after)) = .ok ((poolOf before).next, poolOf (before ++ e :: after)) := by
  refine intern_of_some ?_
  induction after using List.reverseRecOn with
  | nil =>
      rw [poolOf, List.foldl_append]
      exact Std.HashMap.getElem?_insert_self
  | append_singleton after last ih =>
      rw [List.mem_append, not_or, List.mem_singleton] at h
      have hlast : (last == e) = false := beq_false_of_ne (Ne.symm h.2)
      rw [← List.cons_append, ← List.append_assoc, poolOf, List.foldl_append, List.foldl_cons, List.foldl_nil, add,
        Std.HashMap.getElem?_insert, hlast]
      exact ih h.1

end Listed

end Unscramble.ClassFile
