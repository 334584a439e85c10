/-
The bytes of a report.  A report starts with a brace, and no character stands in it that comes before the line feed.
So no beginning of a report is a class file or an archive, and what is left of a report that could not be written to
its end is no program.
-/
import Unscramble.Proofs.StandardText
import Unscramble.Proofs.Words
import Unscramble.Report
import Unscramble.Source

namespace Unscramble

open String (utf8EncodeChar)

section Texts

variable {text text' : String} {items : List String}

/-- No character of the text comes before the line feed. -/
def Text.IsPlain (text : String) : Prop :=
  ∀ c ∈ text.toList, 10 ≤ c.toNat

namespace Text.IsPlain

theorem append (h : IsPlain text) (h' : IsPlain text') : IsPlain (text ++ text') := by
  intro c hc
  rw [String.toList_append] at hc
  exact (List.mem_append.1 hc).elim (h c) (h' c)

theorem join (h : ∀ text ∈ items, IsPlain text) : IsPlain (String.join items) := by
  intro c hc
  rw [String.toList_join] at hc
  obtain ⟨text, htext, hc⟩ := List.mem_flatMap.1 hc
  exact h text htext c hc

theorem intercalate (hbetween : IsPlain text) (h : ∀ text ∈ items, IsPlain text) :
    IsPlain (text.intercalate items) := by
  induction items with
  | nil => exact fun c hc => absurd hc (by simp)
  | cons first rest ih =>
      obtain ⟨hfirst, hrest⟩ := List.forall_mem_cons.1 h
      cases rest with
      | nil => simpa using hfirst
      | cons second rest =>
          rw [String.intercalate_cons_cons]
          exact (hfirst.append hbetween).append (ih hrest)

theorem number (n : Nat) : IsPlain n.repr := by
  intro c hc
  have hdigit : c.isDigit = true := by
    refine Nat.isDigit_of_mem_toDigits (by decide) (Nat.le_refl 10) (n := n) ?_
    rwa [← String.toList_ofList (l := Nat.toDigits 10 n)]
  simp only [Char.isDigit, Bool.and_eq_true, decide_eq_true_eq] at hdigit
  exact Nat.le_trans (by decide) (UInt32.le_iff_toNat_le.1 hdigit.1)

theorem hexByte (b : UInt8) : IsPlain (hexByte b) := by
  have hall : ∀ n < 256, ((Text.hexByte (UInt8.ofNat n)).toList.all fun c => decide (10 ≤ c.toNat)) = true := by
    decide +kernel
  intro c hc
  have hb := hall b.toNat b.toNat_lt
  rw [UInt8.ofNat_toNat] at hb
  exact of_decide_eq_true (List.all_eq_true.1 hb c hc)

theorem jsonChar (c : Char) : IsPlain (Text.jsonChar c) := by
  unfold Text.jsonChar
  split
  case h_8 =>
    split
    · exact append (by simp [IsPlain]) (hexByte _)
    · next hlow =>
        intro other hother
        obtain rfl : other = c := by simpa using hother
        omega
  all_goals simp [IsPlain]

theorem jsonString (text : String) : IsPlain (Text.jsonString text) := by
  have hquote : IsPlain "\"" := by simp [IsPlain]
  refine (hquote.append (join fun part hpart => ?_)).append hquote
  obtain ⟨c, -, rfl⟩ := List.mem_map.1 hpart
  exact jsonChar c

end Text.IsPlain

end Texts

namespace RunReport

open Text

variable {opening closing : String} {items : List String}

theorem isPlain_block (hopening : IsPlain opening) (hclosing : IsPlain closing) (depth : Nat)
    (h : ∀ item ∈ items, IsPlain item) : IsPlain (block opening closing depth items) := by
  have hindent : ∀ n, IsPlain (String.join (List.replicate n "  ")) := fun n =>
    .join fun part hpart => by
      obtain rfl := List.eq_of_mem_replicate hpart
      simp [IsPlain]
  have hline : IsPlain "\n" := by simp [IsPlain]
  have hnext : IsPlain ",\n" := by simp [IsPlain]
  unfold block
  split
  · exact hopening.append hclosing
  · refine ((((hopening.append hline).append (.intercalate hnext fun part hpart => ?_)).append hline).append
      (hindent _)).append hclosing
    obtain ⟨item, hitem, rfl⟩ := List.mem_map.1 hpart
    exact (hindent depth).append (h item hitem)

theorem isPlain_object (depth : Nat) {members : List (String × String)} (h : ∀ member ∈ members, IsPlain member.2) :
    IsPlain (object depth members) := by
  refine isPlain_block (by simp [IsPlain]) (by simp [IsPlain]) depth fun item hitem => ?_
  obtain ⟨member, hmember, rfl⟩ := List.mem_map.1 hitem
  exact ((IsPlain.jsonString _).append (by simp [IsPlain])).append (h member hmember)

theorem isPlain_render (r : RunReport) : IsPlain r.render := by
  have hpass : ∀ report, IsPlain (passText report) := fun report =>
    isPlain_object 3 (by simp [IsPlain.jsonString, IsPlain.number])
  have hpasses : IsPlain (array 2 (r.passes.map passText)) :=
    isPlain_block (by simp [IsPlain]) (by simp [IsPlain]) 2 (by simp [hpass])
  exact (isPlain_object 1 (by simp [IsPlain.jsonString, IsPlain.number, hpasses])).append (by simp [IsPlain])

theorem exists_block (opening closing : String) (depth : Nat) (items : List String) :
    ∃ rest, block opening closing depth items = opening ++ rest := by
  unfold block
  split
  · exact ⟨closing, rfl⟩
  · simp only [String.append_assoc]
    exact ⟨_, rfl⟩

/-- A report starts with a brace. -/
theorem exists_bytes (r : RunReport) : ∃ rest, r.bytes = 0x7b :: rest := by
  obtain ⟨rest, hrest⟩ := exists_block "\x7b" "\x7d" 1 _
  rw [bytes, ClassFile.ModifiedUtf8.toUTF8_eq, render, object, hrest, String.toList_append, String.toList_append]
  exact ⟨_, rfl⟩

theorem le_of_mem_utf8EncodeChar {c : Char} (hc : 10 ≤ c.toNat) : ∀ b ∈ utf8EncodeChar c, 10 ≤ b.toNat := by
  have hvalue : c.val.toNat = c.toNat := rfl
  simp only [utf8EncodeChar, hvalue]
  split
  · simp
    omega
  split
  · simp
    omega
  split
  · simp
    omega
  · simp
    omega

/-- No byte of a report comes before the line feed. -/
theorem le_of_mem_bytes (r : RunReport) : ∀ b ∈ r.bytes, 10 ≤ b.toNat := by
  intro b hb
  rw [bytes, ClassFile.ModifiedUtf8.toUTF8_eq] at hb
  obtain ⟨c, hc, hb⟩ := List.mem_flatMap.1 hb
  exact le_of_mem_utf8EncodeChar (r.isPlain_render c hc) b hb

end RunReport

namespace ClassFile

/-- What a reader of a word has taken. -/
theorem Reader.eq_of_run_u32 {data rest : Bytes} {word : UInt32} (h : u32.run data = some (word, rest)) :
    data = u32Bytes word ++ rest := by
  match data with
  | a :: b :: c :: d :: tail =>
      have htakes := Reader.takes_u32 (UInt32.ofNat (valueOf [a, b, c, d])) tail
      rw [u32Bytes_valueOf, List.cons_append, List.cons_append, List.cons_append, List.cons_append,
        List.nil_append, h] at htakes
      cases htakes
      rw [u32Bytes_valueOf]
      rfl
  | [] | [_] | [_, _] | [_, _, _] => cases h

/-- A class file starts with its magic number. -/
theorem RawClass.exists_magic {data : Bytes} {raw : RawClass} (h : parse? data = some raw) :
    ∃ rest, data = u32Bytes magic ++ rest := by
  unfold parse? at h
  split at h
  case h_2 => cases h
  next raw' hrun =>
    obtain ⟨⟨word, rest⟩, hword, hrun⟩ := Option.bind_eq_some_iff.1 hrun
    by_cases hmagic : word = magic
    · exact ⟨rest, hmagic ▸ Reader.eq_of_run_u32 hword⟩
    · dsimp only at hrun
      rw [if_pos (by simpa using hmagic)] at hrun
      cases hrun

end ClassFile

namespace Zip

variable {data : Array UInt8} {place n : Nat}

/-- The first byte of a number, and what the bytes behind it stand for. -/
theorem exists_byte {width : Nat} (h : numberAt? data (width + 1) place = some n) :
    ∃ low, data[place]? = some low ∧ low.toNat = n % 256 ∧ numberAt? data width (place + 1) = some (n / 256) := by
  obtain ⟨low, hlow, h⟩ := Option.bind_eq_some_iff.1 h
  obtain ⟨high, hhigh, h⟩ := Option.bind_eq_some_iff.1 h
  obtain rfl := Option.some.inj h
  have hlt := low.toNat_lt
  refine ⟨low, hlow, by omega, ?_⟩
  rw [hhigh]
  congr 1
  omega

theorem exists_of_findLast? {α : Type} {look : Nat → Option α} {bound : Nat} {found : α}
    (h : findLast? look bound = some found) : ∃ place, look place = some found := by
  induction bound with
  | zero => cases h
  | succ place ih =>
      rw [findLast?] at h
      split at h
      · next hlook => exact ⟨place, hlook.trans h⟩
      · exact ih h

/-- An archive holds the signature of its end, and so a byte that comes before the line feed. -/
theorem five_mem_of_decode? {bytes : Bytes} {entries : List Entry} (h : decode? bytes = some entries) :
    5 ∈ bytes := by
  obtain ⟨lines, hlines, -⟩ := Option.bind_eq_some_iff.1 h
  obtain ⟨place, hplace⟩ := exists_of_findLast? hlines
  obtain ⟨record, hrecord, -⟩ := Option.bind_eq_some_iff.1 hplace
  obtain ⟨signature, hsignature, hrest⟩ := Option.bind_eq_some_iff.1 hrecord
  obtain ⟨⟨⟩, hguard, -⟩ := Option.bind_eq_some_iff.1 hrest
  obtain rfl : signature = endSignature := by simpa [guard] using hguard
  obtain ⟨-, -, -, hsecond⟩ := exists_byte hsignature
  obtain ⟨-, -, -, hthird⟩ := exists_byte hsecond
  obtain ⟨third, hget, hthird, -⟩ := exists_byte hthird
  obtain rfl : third = 5 := UInt8.toNat_inj.1 hthird
  exact List.mem_of_getElem? (by simpa using hget)

end Zip

variable {files : FileSystem} {path : String} {content : Bytes} {pool : ClassPool}

/-- A file that is read as a program is a class file or an archive. -/
theorem Source.exists_form (h : read files path = .ok pool) (hcontent : files.content? path = some content) :
    (∃ raw, ClassFile.RawClass.parse? content = some raw) ∨ ∃ entries, Zip.decode? content = some entries := by
  have hlookup : files.lookup path = some (.file content) := by
    unfold FileSystem.content? at hcontent
    split at hcontent
    · next found hfound =>
        cases hcontent
        exact hfound
    · cases hcontent
  unfold read at h
  rw [hlookup, hcontent] at h
  split at h
  · right
    cases hentries : Zip.decode? content with
    | some entries => exact ⟨entries, rfl⟩
    | none =>
        dsimp only at h
        rw [hentries] at h
        cases h
  split at h
  · left
    cases hraw : ClassFile.RawClass.parse? content with
    | some raw => exact ⟨raw, rfl⟩
    | none =>
        simp only [classFrom, ClassFile.decodeClass, hraw] at h
        cases h
  · cases h

/-- No beginning of a report is a program. -/
theorem Source.ne_take_bytes (h : read files path = .ok pool) (hcontent : files.content? path = some content)
    (r : RunReport) (count : Nat) : content ≠ r.bytes.take count := by
  rintro rfl
  rcases exists_form h hcontent with ⟨raw, hraw⟩ | ⟨entries, hentries⟩
  · obtain ⟨rest, hrest⟩ := ClassFile.RawClass.exists_magic hraw
    obtain ⟨later, hlater⟩ := r.exists_bytes
    rw [hlater] at hrest
    cases count <;> cases hrest
  · have hfive := r.le_of_mem_bytes 5 (List.mem_of_mem_take (Zip.five_mem_of_decode? hentries))
    exact absurd hfive (by decide)

end Unscramble
