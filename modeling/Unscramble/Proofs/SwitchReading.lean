/-
Switches are read back from their bytes.  All operands of a switch are words of four bytes that stand in a row, and
each is found at its place.
-/
import Unscramble.Proofs.InstrReading

namespace Unscramble.ClassFile.Code

open Reader

/-- The bytes of words in a row. -/
def wordsOf (values : List Int32) : Bytes :=
  (values.map fun value => u32Bytes value.toUInt32).flatten

@[simp] theorem length_wordsOf (values : List Int32) : (wordsOf values).length = 4 * values.length := by
  induction values with
  | nil => rfl
  | cons value rest ih =>
      rw [wordsOf, List.map_cons, List.flatten_cons, List.length_append, length_u32Bytes, List.length_cons]
      rw [wordsOf] at ih
      omega

theorem wordsOf_append (values values' : List Int32) :
    wordsOf (values ++ values') = wordsOf values ++ wordsOf values' := by
  simp [wordsOf]

theorem wordsOf_cons (value : Int32) (values : List Int32) :
    wordsOf (value :: values) = u32Bytes value.toUInt32 ++ wordsOf values := rfl

/-- The word at its place among others. -/
theorem i32At_wordsOf {front rest : Bytes} {before after : List Int32} {value : Int32} {place : Nat}
    (hplace : place = front.length + 4 * before.length) :
    i32At (front ++ (wordsOf (before ++ value :: after) ++ rest)) place = .ok value := by
  rw [wordsOf_append, wordsOf_cons, List.append_assoc, List.append_assoc, ← List.append_assoc front]
  exact i32At_append (by rw [List.length_append, length_wordsOf, hplace]) value

/-- Words are read in a row. -/
theorem words_wordsOf (values : List Int32) (rest : Bytes) :
    switchTable.words values.length (wordsOf values ++ rest) = .ok values := by
  have htakes : Takes (times (values.map Int32.toUInt32).length u32) (wordsOf values)
      (values.map Int32.toUInt32) := by
    refine takes_times ?_
    rw [List.forall₂_map_left_iff, List.forall₂_map_right_iff, List.forall₂_same]
    exact fun value _ => takes_u32 value.toUInt32
  rw [List.length_map] at htakes
  rw [switchTable.words, htakes rest]
  simp only [List.map_map]
  congr 1
  exact (List.map_congr_left fun value _ => rfl).trans (List.map_id values)

theorem drop_wordsOf {front rest : Bytes} {before after : List Int32} {count : Nat}
    (hcount : count = front.length + 4 * before.length) :
    (front ++ (wordsOf (before ++ after) ++ rest)).drop count = wordsOf after ++ rest := by
  rw [wordsOf_append, List.append_assoc, ← List.append_assoc front, hcount]
  exact List.drop_left' (by rw [List.length_append, length_wordsOf])

section EveryOther

theorem everyOther_cons_cons (first second : Int32) (rest : List Int32) :
    switchTable.everyOther (first :: second :: rest) = first :: switchTable.everyOther rest := by
  have hshift : rest.zipIdx 2 = rest.zipIdx.map fun p => (p.1, 2 + p.2) := List.zipIdx_eq_map_add
  simp [switchTable.everyOther, List.zipIdx_cons, hshift, List.filterMap_map]

/-- Pairs in a row. -/
def interleave (pairs : List (Int32 × Int32)) : List Int32 :=
  pairs.flatMap fun (first, second) => [first, second]

theorem everyOther_interleave (pairs : List (Int32 × Int32)) :
    switchTable.everyOther (interleave pairs) = pairs.map Prod.fst := by
  induction pairs with
  | nil => rfl
  | cons pair rest ih =>
      rw [List.map_cons, ← ih]
      exact everyOther_cons_cons pair.1 pair.2 (interleave rest)

theorem everyOther_cons_interleave (value : Int32) (pairs : List (Int32 × Int32)) :
    switchTable.everyOther (value :: interleave pairs) = value :: pairs.map Prod.snd := by
  induction pairs generalizing value with
  | nil => rfl
  | cons pair rest ih =>
      have hrest := ih pair.2
      rw [List.map_cons, ← hrest]
      exact everyOther_cons_cons value pair.1 (pair.2 :: interleave rest)

theorem everyOther_tail_interleave (pairs : List (Int32 × Int32)) :
    switchTable.everyOther (interleave pairs).tail = pairs.map Prod.snd := by
  cases pairs with
  | nil => rfl
  | cons pair rest => exact everyOther_cons_interleave pair.2 rest

end EveryOther

section Switches

variable {b : PoolBuilder} {offsets : List (Label × Nat)} {offset : Nat} {fallback : Label} {targets : List Label}
  {d : Int32} {ds : List Int32}

/-- The code of a switch with the filler bytes behind it. -/
def switchHead (offset : Nat) (op : Opcode) : Bytes :=
  op :: List.replicate (padding offset) 0

theorem length_switchHead (offset : Nat) (op : Opcode) : (switchHead offset op).length = 1 + padding offset := by
  rw [switchHead, List.length_cons, List.length_replicate, Nat.add_comm]

theorem instrLength_tableSwitch {low high : Int32} {count : Nat} (hcount : (count : Int) = high.toInt - low.toInt + 1)
    (hsmall : count ≤ 65535) (after : List Int32) (rest : Bytes) :
    instrLength offset Opcode.tableSwitch
      (switchHead offset Opcode.tableSwitch ++ (wordsOf (d :: low :: high :: after) ++ rest)) =
        .ok (1 + padding offset + 12 + count * 4) := by
  have hlow := @i32At_wordsOf (switchHead offset Opcode.tableSwitch) rest [d] (high :: after) low
    (1 + padding offset + 4) (by rw [length_switchHead]; rfl)
  have hhigh := @i32At_wordsOf (switchHead offset Opcode.tableSwitch) rest [d, low] after high
    (1 + padding offset + 8) (by rw [length_switchHead]; rfl)
  have hrange : ¬ (high.toInt - low.toInt + 1 < 0 ∨ Int32.maxValue.toInt < high.toInt - low.toInt + 1) := by
    rw [← hcount]
    have hmax : Int32.maxValue.toInt = 2147483647 := rfl
    omega
  unfold instrLength
  rw [if_pos rfl]
  refine bind_eq_ok.2 ⟨low, hlow, bind_eq_ok.2 ⟨high, hhigh, ?_⟩⟩
  rw [if_neg hrange, ← hcount]
  rfl

theorem switchTable_tableSwitch {p : Piece} {front rest : Bytes} {low high : Int32}
    (hop : p.op = Opcode.tableSwitch) (hfront : front.length = 1 + padding p.offset)
    (hcode : p.code = front ++ (wordsOf (d :: low :: high :: ds) ++ rest))
    (hcount : (ds.length : Int) = high.toInt - low.toInt + 1) : switchTable p = .ok ⟨d, [low, high], ds⟩ := by
  have hfallback : i32At p.code (1 + padding p.offset) = .ok d := by
    rw [hcode]
    exact @i32At_wordsOf front rest [] (low :: high :: ds) d _ (by rw [hfront]; rfl)
  have hlow : i32At p.code (1 + padding p.offset + 4) = .ok low := by
    rw [hcode]
    exact @i32At_wordsOf front rest [d] (high :: ds) low _ (by rw [hfront]; rfl)
  have hhigh : i32At p.code (1 + padding p.offset + 8) = .ok high := by
    rw [hcode]
    exact @i32At_wordsOf front rest [d, low] ds high _ (by rw [hfront]; rfl)
  have hwords : switchTable.words ds.length (p.code.drop (1 + padding p.offset + 12)) = .ok ds := by
    rw [hcode, ← words_wordsOf ds rest]
    exact congrArg _ (@drop_wordsOf front rest [d, low, high] ds _ (by rw [hfront]; rfl))
  refine bind_eq_ok.2 ⟨d, hfallback, ?_⟩
  rw [if_pos hop]
  refine bind_eq_ok.2 ⟨low, hlow, bind_eq_ok.2 ⟨high, hhigh, bind_eq_ok.2 ⟨ds, ?_, rfl⟩⟩⟩
  rw [← hcount]
  exact hwords

theorem toInt_count {count : Nat} (h : count ≤ 65535) : (UInt32.ofNat count).toInt32.toInt = count := by
  have hcount : (UInt32.ofNat count).toInt32 = Int32.ofNat count := rfl
  rw [hcount, Int32.toInt_ofNat_of_lt (by omega)]

theorem instrLength_lookupSwitch {count : Nat} (hsmall : count ≤ 65535) (after : List Int32) (rest : Bytes) :
    instrLength offset Opcode.lookupSwitch
      (switchHead offset Opcode.lookupSwitch ++
        (wordsOf (d :: (UInt32.ofNat count).toInt32 :: after) ++ rest)) =
        .ok (1 + padding offset + 8 + count * 8) := by
  have hpairs := @i32At_wordsOf (switchHead offset Opcode.lookupSwitch) rest [d] after
    (UInt32.ofNat count).toInt32 (1 + padding offset + 4) (by rw [length_switchHead]; rfl)
  have hcount := toInt_count hsmall
  have hrange : ¬ (UInt32.ofNat count).toInt32 < 0 := by
    rw [Int32.lt_iff_toInt_lt, hcount]
    exact Int.not_lt.2 (Int.natCast_nonneg count)
  unfold instrLength
  rw [if_neg (by decide), if_pos rfl]
  refine bind_eq_ok.2 ⟨_, hpairs, ?_⟩
  rw [if_neg hrange, hcount]
  rfl

theorem length_interleave (pairs : List (Int32 × Int32)) : (interleave pairs).length = pairs.length * 2 := by
  simp [interleave]

theorem switchTable_lookupSwitch {p : Piece} {front rest : Bytes} {count : Int32} {entries : List Int32}
    (hop : p.op = Opcode.lookupSwitch) (hfront : front.length = 1 + padding p.offset)
    (hcode : p.code = front ++ (wordsOf (d :: count :: entries) ++ rest))
    (hcount : count.toInt.toNat * 2 = entries.length) :
    switchTable p = .ok ⟨d, switchTable.everyOther entries, switchTable.everyOther entries.tail⟩ := by
  have hfallback : i32At p.code (1 + padding p.offset) = .ok d := by
    rw [hcode]
    exact @i32At_wordsOf front rest [] (count :: entries) d _ (by rw [hfront]; rfl)
  have hpairs : i32At p.code (1 + padding p.offset + 4) = .ok count := by
    rw [hcode]
    exact @i32At_wordsOf front rest [d] entries count _ (by rw [hfront]; rfl)
  have hwords : switchTable.words entries.length (p.code.drop (1 + padding p.offset + 8)) = .ok entries := by
    rw [hcode, ← words_wordsOf entries rest]
    exact congrArg _ (@drop_wordsOf front rest [d, count] entries _ (by rw [hfront]; rfl))
  have hne : ¬ p.op = Opcode.tableSwitch := by
    rw [hop]
    decide
  refine bind_eq_ok.2 ⟨d, hfallback, ?_⟩
  rw [if_neg hne]
  refine bind_eq_ok.2 ⟨count, hpairs, bind_eq_ok.2 ⟨entries, ?_, rfl⟩⟩
  rw [hcount]
  exact hwords

/-- The targets of a switch are those of its distances. -/
theorem branchTargets_switch {op : Opcode} {operands : Bytes} {keys : List Int32} (hop : isSwitch op = true)
    (htable : ∀ behind, switchTable ⟨offset, op, operands, behind⟩ = .ok ⟨d, keys, ds⟩)
    (hleads : List.Forall₂ (fun label (d : Int32) => Leads offsets offset label d.toInt)
      (fallback :: targets) (d :: ds)) :
    ∃ found, (∀ behind, branchTargets ⟨offset, op, operands, behind⟩ = .ok found) ∧
      ∀ o, o ∈ found ↔ ∃ label ∈ targets ++ [fallback], offsets.lookup label = some o := by
  obtain ⟨found, hfound, hlookup⟩ := targets_of_leads hleads
  refine ⟨found, fun behind => ?_, fun o => ?_⟩
  · rw [branchTargets, if_pos hop]
    exact bind_eq_ok.2 ⟨_, htable behind, hfound⟩
  · rw [mem_iff_of_lookup hlookup]
    simp [or_comm]

theorem placed_of_leads
    (hleads : List.Forall₂ (fun label (d : Int32) => Leads offsets offset label d.toInt) targets ds) :
    ∀ label ∈ targets, ∃ o, offsets.lookup label = some o := by
  induction hleads with
  | nil => exact nofun
  | cons hfirst _ ih =>
      obtain ⟨target, hlookup, -⟩ := hfirst
      exact List.forall_mem_cons.2 ⟨⟨target, hlookup⟩, ih⟩

/-- The reader's labels for the default and the cases of a switch. -/
theorem labels_of_switch {places : Labels} {f : Label → Label}
    (hleads : List.Forall₂ (fun label (d : Int32) => Leads offsets offset label d.toInt)
      (fallback :: targets) (d :: ds))
    (hf : ∀ label ∈ targets ++ [fallback], ∀ o, offsets.lookup label = some o →
      places.lookup o = some (f label)) :
    jumpLabel places offset d.toInt = .ok (f fallback) ∧
      ds.mapM (fun d => jumpLabel places offset d.toInt) = .ok (targets.map f) := by
  have hlabels := labels_of_leads hleads fun label hlabel => hf label (by simpa [or_comm] using hlabel)
  rw [List.mapM_cons] at hlabels
  obtain ⟨first, hfirst, hrest⟩ := bind_eq_ok.1 hlabels
  obtain ⟨others, hothers, heq⟩ := bind_eq_ok.1 hrest
  cases heq
  exact ⟨hfirst, hothers⟩

/-- A switch is stored by its words if its size is that of its bytes and the reader finds its keys and distances
there. -/
theorem stores_switch {op : Opcode} {i : Instr} {words keys : List Int32} {size : Nat}
    (hop : isSwitch op = true) (htargets : i.targets = targets ++ [fallback])
    (hwords : 1 + padding offset + 4 * words.length = size) (hsize : (encodedSize offset i).run b = .ok (size, b))
    (hlength : ∀ rest, instrLength offset op (switchHead offset op ++ (wordsOf words ++ rest)) = .ok size)
    (htable : ∀ (p : Piece) (rest : Bytes), p.offset = offset → p.op = op →
      p.code = switchHead offset op ++ (wordsOf words ++ rest) → switchTable p = .ok ⟨d, keys, ds⟩)
    (hdecoded : ∀ (places : Labels) (f : Label → Label) (p : Piece), p.offset = offset → p.op = op →
      switchTable p = .ok ⟨d, keys, ds⟩ → jumpLabel places offset d.toInt = .ok (f fallback) →
        ds.mapM (fun d => jumpLabel places offset d.toInt) = .ok (targets.map f) →
          decodePiece b.table places p = .ok (i.relabel f))
    (hleads : List.Forall₂ (fun label (d : Int32) => Leads offsets offset label d.toInt)
      (fallback :: targets) (d :: ds)) :
    Stores b offsets offset i (switchHead offset op ++ wordsOf words) := by
  have hbytes : (List.replicate (padding offset) 0 ++ wordsOf words).length + 1 = size := by
    rw [List.length_append, List.length_replicate, length_wordsOf]
    omega
  have hread : ∀ behind, switchTable ⟨offset, op, List.replicate (padding offset) 0 ++ wordsOf words, behind⟩ =
      .ok ⟨d, keys, ds⟩ := by
    intro behind
    refine htable _ behind rfl rfl ?_
    rw [Piece.code, ← List.append_assoc]
    rfl
  refine ⟨op, List.replicate (padding offset) 0 ++ wordsOf words, rfl, ?_⟩
  refine ⟨?_, fun rest => ?_, ?_, fun label hlabel => ?_, fun places f hf behind => ?_⟩
  · rw [hbytes]
    exact hsize
  · rw [hbytes, ← hlength rest, ← List.append_assoc]
    rfl
  · rw [htargets]
    exact branchTargets_switch hop hread hleads
  · rw [htargets] at hlabel
    exact placed_of_leads hleads label (by simpa [or_comm] using hlabel)
  · rw [htargets] at hf
    obtain ⟨hfirst, hothers⟩ := labels_of_switch hleads hf
    exact hdecoded places f _ rfl rfl (hread behind) hfirst hothers

theorem stores_tableSwitch {low high : Int32} (hcount : (targets.length : Int) = high.toInt - low.toInt + 1)
    (hsmall : targets.length ≤ 65535)
    (hleads : List.Forall₂ (fun label (d : Int32) => Leads offsets offset label d.toInt)
      (fallback :: targets) (d :: ds)) :
    Stores b offsets offset (.tableSwitch low high fallback targets)
      (switchHead offset Opcode.tableSwitch ++ wordsOf (d :: low :: high :: ds)) := by
  have hlength := (List.forall₂_cons.1 hleads).2.length_eq
  refine @stores_switch b offsets offset fallback targets d ds _ _ _ [low, high] _ rfl rfl ?_ rfl
    (instrLength_tableSwitch hcount hsmall ds) ?_ ?_ hleads
  · simp only [List.length_cons, hlength]
    omega
  · rintro p rest rfl hop hcode
    exact switchTable_tableSwitch hop (length_switchHead _ _) hcode (by rw [← hlength]; exact hcount)
  · rintro places f ⟨_, _, operands, behind⟩ rfl rfl htable hfirst hothers
    exact bind_eq_ok.2 ⟨_, htable, bind_eq_ok.2 ⟨f fallback, hfirst, bind_eq_ok.2 ⟨_, hothers, rfl⟩⟩⟩

theorem stores_lookupSwitch {keys : List Int32} (hcount : targets.length = keys.length)
    (hsmall : keys.length ≤ 65535)
    (hleads : List.Forall₂ (fun label (d : Int32) => Leads offsets offset label d.toInt)
      (fallback :: targets) (d :: ds)) :
    Stores b offsets offset (.lookupSwitch fallback keys targets)
      (switchHead offset Opcode.lookupSwitch ++
        wordsOf (d :: (UInt32.ofNat keys.length).toInt32 :: interleave (keys.zip ds))) := by
  have hlength := (List.forall₂_cons.1 hleads).2.length_eq
  have hkeys : (keys.zip ds).map Prod.fst = keys := List.map_fst_zip (by omega)
  have hds : (keys.zip ds).map Prod.snd = ds := List.map_snd_zip (by omega)
  have hpairs : (keys.zip ds).length = keys.length := by
    rw [List.length_zip]
    omega
  refine @stores_switch b offsets offset fallback targets d ds _ _ _ keys _ rfl rfl ?_ rfl
    (instrLength_lookupSwitch hsmall (interleave (keys.zip ds))) ?_ ?_ hleads
  · simp only [List.length_cons, length_interleave, hpairs]
    omega
  · rintro p rest rfl hop hcode
    have htable := switchTable_lookupSwitch hop (length_switchHead _ _) hcode
      (by rw [toInt_count hsmall, length_interleave, hpairs]; rfl)
    rwa [everyOther_interleave, everyOther_tail_interleave, hkeys, hds] at htable
  · rintro places f ⟨_, _, operands, behind⟩ rfl rfl htable hfirst hothers
    exact bind_eq_ok.2 ⟨_, htable, bind_eq_ok.2 ⟨f fallback, hfirst, bind_eq_ok.2 ⟨_, hothers, rfl⟩⟩⟩

end Switches

end Unscramble.ClassFile.Code
