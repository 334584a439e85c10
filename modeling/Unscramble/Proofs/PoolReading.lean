/-
A constant pool is read back from its written form: entry by entry, with the empty slots in their places.
-/
import Unscramble.Proofs.Interning
import Unscramble.Proofs.ModifiedText
import Unscramble.Proofs.Words

namespace Unscramble.ClassFile

open Reader

/-- An entry is read back. -/
theorem takes_entry {e : PoolEntry} {block : Bytes} (he : e.IsWritten)
    (h : e.encode = .ok block) : Takes PoolEntry.read block e := by
  cases e with
  | empty => exact absurd rfl he.1
  | other => exact absurd rfl he.2
  | utf8 text =>
      simp only [PoolEntry.encode] at h
      split at h
      · cases h
      · cases h
        rename_i hlength
        have hcount : (UInt16.ofNat (ModifiedUtf8.encode text).length).toNat =
            (ModifiedUtf8.encode text).length := by
          rw [UInt16.toNat_ofNat', Nat.mod_eq_of_lt (by omega)]
        refine (takes_u8 1).bind ((takes_u16 _).bind ((takes_bytes hcount.symm).last ?_))
        rw [ModifiedUtf8.decode_encode]
        exact Takes.pure _
  | integer value =>
      cases h
      exact (takes_u8 3).bind ((takes_u32 _).last (Takes.pure _))
  | float bits =>
      cases h
      exact (takes_u8 4).bind ((takes_u32 _).last (Takes.pure _))
  | long value =>
      cases h
      exact (takes_u8 5).bind ((takes_u64 _).last (Takes.pure _))
  | double bits =>
      cases h
      exact (takes_u8 6).bind ((takes_u64 _).last (Takes.pure _))
  | classRef name =>
      cases h
      exact (takes_u8 7).bind ((takes_u16 _).last (Takes.pure _))
  | string text =>
      cases h
      exact (takes_u8 8).bind ((takes_u16 _).last (Takes.pure _))
  | member kind owner pair =>
      cases h
      cases kind with
      | field => exact (takes_u8 9).bind ((takes_u16 _).bind ((takes_u16 _).last (Takes.pure _)))
      | method => exact (takes_u8 10).bind ((takes_u16 _).bind ((takes_u16 _).last (Takes.pure _)))
      | interfaceMethod =>
          exact (takes_u8 11).bind ((takes_u16 _).bind ((takes_u16 _).last (Takes.pure _)))
  | nameAndType name descriptor =>
      cases h
      exact (takes_u8 12).bind ((takes_u16 _).bind ((takes_u16 _).last (Takes.pure _)))

/-- After an entry of one slot, reading goes on with one slot less. -/
theorem takes_readOnto_one {e : PoolEntry} {block rest : Bytes} {slots : Nat} {done pool : List PoolEntry}
    (he : e.slots = 1) (h : Takes PoolEntry.read block e)
    (hrest : Takes (PoolEntry.readOnto slots (e :: done)) rest pool) :
    Takes (PoolEntry.readOnto (slots + 1) done) (block ++ rest) pool := by
  cases slots with
  | zero => exact h.bind hrest
  | succ slots =>
      refine h.bind ?_
      rwa [if_neg (by omega)]

/-- After an entry of two slots, reading goes on with two slots less. -/
theorem takes_readOnto_two {e : PoolEntry} {block rest : Bytes} {slots : Nat} {done pool : List PoolEntry}
    (he : e.slots = 2) (h : Takes PoolEntry.read block e)
    (hrest : Takes (PoolEntry.readOnto slots (.empty :: e :: done)) rest pool) :
    Takes (PoolEntry.readOnto (slots + 2) done) (block ++ rest) pool := by
  refine h.bind ?_
  rwa [if_pos he]

theorem takes_readOnto {entries : List PoolEntry} {blocks : List Bytes}
    (h : List.Forall₂ (fun e block => e.encode = .ok block) entries blocks)
    (hwritten : ∀ e ∈ entries, e.IsWritten) (done : List PoolEntry) :
    Takes (PoolEntry.readOnto (entries.flatMap PoolEntry.cells).length done) blocks.flatten
      (done.reverse ++ entries.flatMap PoolEntry.cells) := by
  induction h generalizing done with
  | nil =>
      rw [List.flatMap_nil, List.append_nil]
      exact Takes.pure _
  | @cons e block entries blocks hencode _ ih =>
      have hentry := takes_entry (hwritten e List.mem_cons_self) hencode
      have hrest := ih fun e' he' => hwritten e' (List.mem_cons_of_mem e he')
      rw [List.flatMap_cons, List.flatten_cons, List.length_append, e.length_cells, Nat.add_comm]
      rcases e.slots_eq with hslots | hslots
      · have hpool := hrest (e :: done)
        rw [List.reverse_cons, List.append_assoc] at hpool
        rw [PoolEntry.cells, hslots]
        exact takes_readOnto_one hslots hentry hpool
      · have hpool := hrest (.empty :: e :: done)
        rw [List.reverse_cons, List.reverse_cons, List.append_assoc, List.append_assoc] at hpool
        rw [PoolEntry.cells, hslots]
        exact takes_readOnto_two hslots hentry hpool

/-- A sound pool is read back. -/
theorem takes_pool {b : PoolBuilder} {block : Bytes} (hb : b.Sound) (h : b.encode = .ok block) :
    Takes ConstantPool.read block b.table := by
  obtain ⟨blocks, hblocks, hblock⟩ := bind_eq_ok.1 h
  cases hblock
  have hentries := takes_readOnto (mapM_eq_ok.1 hblocks)
    (fun e he => hb.written e (List.mem_reverse.1 he)) [.empty]
  refine (takes_u16 b.next).bind ?_
  have hnext : b.next.toNat = (b.entries.reverse.flatMap PoolEntry.cells).length + 1 := hb.next_eq
  rw [hnext]
  exact hentries.last (Takes.pure _)

end Unscramble.ClassFile
