/-
The multipliers of encoded fields as a system of observations.  An encoded field holds its value times
an encoder; reading multiplies by the decoder, the inverse of the encoder.  A candidate is a constant seen
in such a multiplication, an assignment a constant between a read of one field and a store to another.
Fields are settled one after another, and every settled field turns the assignments it occurs in into
candidates for their other side.
-/
import Unscramble.Log
import Unscramble.Number

namespace Unscramble.Multiplier

/-- A constant that was multiplied with a read of a field, or with a value stored to it. -/
structure Candidate where
  onRead : Bool
  value : Number
deriving DecidableEq, Repr

namespace Candidate

def decoding (value : Number) : Candidate := ⟨true, value⟩

def encoding (value : Number) : Candidate := ⟨false, value⟩

/-- The decoder that the candidate stands for. -/
def decoder (c : Candidate) : Except NotInvertible Number :=
  if c.onRead then .ok c.value else c.value.inverse

/-- The factor by which two candidates differ. -/
def quotient (a b : Candidate) : Except NotInvertible Number :=
  if a.onRead = b.onRead then b.value.inverse.map (·.mul a.value)
  else .ok (b.value.mul a.value)

/-- The largest factor by which a candidate may exceed the multiplier itself. -/
def maxFactor : Nat := 255

/-- Whether `product` is `factor` times something small. -/
def isMultiple (product factor : Candidate) : Except NotInvertible Bool :=
  (quotient product factor).map fun q => q.toInt.natAbs ≤ maxFactor

end Candidate

/-- The value of `get` times `factor` is stored to `put`. -/
structure Assignment where
  put : String
  get : String
  factor : Number
deriving DecidableEq, Repr

/-- Whether an assignment reads or writes a field. -/
def Assignment.mentions (field : String) (a : Assignment) : Bool :=
  a.get == field || a.put == field

/-- The candidates of each field, the latest first; fields in the order in which they were first seen. -/
abbrev Pending := List (String × List Candidate)

namespace Pending

/-- Adds a candidate to a field. -/
def push (field : String) (c : Candidate) : Pending → Pending
  | [] => [(field, [c])]
  | (key, candidates) :: rest =>
      if key = field then (key, c :: candidates) :: rest
      else (key, candidates) :: push field c rest

/-- Removes the earliest occurrence of a candidate of a field, and the field with its last candidate;
`none` if there is no such candidate. -/
def remove? (field : String) (c : Candidate) : Pending → Option Pending
  | [] => none
  | (key, candidates) :: rest =>
      if key = field then
        if candidates.contains c then
          match candidates.reverse.erase c with
          | [] => some rest
          | others => some ((key, others.reverse) :: rest)
        else none
      else (remove? field c rest).map ((key, candidates) :: ·)

theorem length_push_le (field : String) (c : Candidate) (pending : Pending) :
    (push field c pending).length ≤ pending.length + 1 := by
  induction pending with
  | nil => simp [push]
  | cons entry rest ih =>
      obtain ⟨key, candidates⟩ := entry
      simp only [push]
      split
      · simp
      · simpa using ih

end Pending

/-- Decoders by field. -/
abbrev Decoders := List (String × Number)

/-- Gives a field a decoder, in place of one that it had. -/
def Decoders.insert (field : String) (decoder : Number) (decoders : Decoders) : Decoders :=
  (field, decoder) :: decoders.filter (·.1 != field)

/-- What is worth a warning when a field is settled. -/
inductive Notice where
  | unresolved (field : String) (candidates : Nat)
  | outvoted (field : String) (voted decoder : Number)
deriving DecidableEq, Repr

def Notice.text : Notice → String
  | unresolved field candidates =>
      s!"Unable to resolve a multiplier for {field} from {candidates} candidates"
  | outvoted field voted decoder =>
      s!"Frequency vote for {field} prefers {voted.text} over the resolved decoder {decoder.text}"

/-- The observations of a program and the decoders found so far. -/
structure System where
  pending : Pending := []
  assignments : List Assignment := []
  decoders : Decoders := []
  notices : List Notice := []

/-- The candidates without repetitions. -/
def distinct (candidates : List Candidate) : List Candidate :=
  candidates.foldl (fun kept c => if kept.contains c then kept else kept ++ [c]) []

/-- Whether all candidates are small multiples of one. -/
def dividesAll (factor : Candidate) : List Candidate → Except NotInvertible Bool
  | [] => .ok true
  | product :: rest => do
      if ← product.isMultiple factor then dividesAll factor rest else pure false

/-- The decoder on which the candidates of a field agree.  A constant that decodes what another one
encodes wins; otherwise it is the constant of which all others are small multiples. -/
def agreed (candidates : List Candidate) : Except NotInvertible (Option Number) :=
  match distinct candidates with
  | [single] => single.decoder.map some
  | several => do
      let decoded ← several.mapM fun c => do pure (c, ← c.decoder)
      let paired := decoded.find? fun (c, decoder) =>
        c.onRead && decoded.any fun (other, otherDecoder) =>
          !other.onRead && otherDecoder == decoder
      match paired with
      | some (_, decoder) => pure (some decoder)
      | none =>
          let factors ← decoded.filterM fun (c, _) => dividesAll c several
          match factors.find? (·.1.onRead) with
          | some (_, decoder) => pure (some decoder)
          | none => pure (factors.head?.map (·.2))

/-- How often each decoder occurs, in the order of first occurrence. -/
def tally (decoders : List Number) : List (Number × Nat) :=
  decoders.foldl (fun counts d =>
    if counts.any (·.1 == d) then
      counts.map fun (other, count) => if other == d then (other, count + 1) else (other, count)
    else counts ++ [(d, 1)]) []

/-- The decoder that occurs most often, if there is only one such. -/
def voted (candidates : List Candidate) : Except NotInvertible (Option Number) := do
  let counts := tally (← candidates.mapM Candidate.decoder)
  let most := counts.foldl (fun most (_, count) => max most count) 0
  match counts.filter (·.2 == most) with
  | [(decoder, _)] => pure (some decoder)
  | _ => pure none

/-- The decoder of a field by its candidates in the order in which they were seen, with the warnings that
this gives rise to. -/
def choose (field : String) (candidates : List Candidate) :
    Except NotInvertible (Option Number × List Notice) := do
  match ← agreed candidates with
  | none => pure (none, [.unresolved field candidates.length])
  | some decoder =>
      match ← voted candidates with
      | some other =>
          pure (some decoder, if other = decoder then [] else [.outvoted field other decoder])
      | none => pure (some decoder, [])

namespace System

/-- Adds an assignment once. -/
def assign (a : Assignment) (s : System) : System :=
  if s.assignments.contains a then s else { s with assignments := s.assignments ++ [a] }

/-- Adds a candidate. -/
def observe (field : String) (c : Candidate) (s : System) : System :=
  { s with pending := s.pending.push field c }

/-- Adds a candidate unless its value cannot be a multiplier. -/
def observeMultiplier (field : String) (c : Candidate) (s : System) : System :=
  if c.value.isMultiplier then s.observe field c else s

/-- The size of what is left to do. -/
def size (s : System) : Nat :=
  s.pending.length + s.assignments.length

/-- Takes an assignment back into the system: as a candidate for one side if the other one is settled,
and as an assignment otherwise. -/
def absorb (s : System) (a : Assignment) : Except NotInvertible System :=
  match s.decoders.lookup a.put with
  | some decoder => .ok (s.observeMultiplier a.get (.decoding (decoder.mul a.factor)))
  | none =>
      match s.decoders.lookup a.get with
      | some decoder => do
          let encoder ← decoder.inverse
          pure (s.observeMultiplier a.put (.encoding (encoder.mul a.factor)))
      | none => .ok { s with assignments := s.assignments ++ [a] }

/-- Turns every assignment with a settled side into a candidate for the other side. -/
def simplify (s : System) : Except NotInvertible System :=
  s.assignments.foldlM absorb { s with assignments := [] }

/-- The field to settle next and the other ones: the first that no assignment mentions, or else the
first of all. -/
def next? (s : System) : Option ((String × List Candidate) × Pending) :=
  let free (entry : String × List Candidate) : Bool := !s.assignments.any (·.mentions entry.1)
  match s.pending with
  | [] => none
  | first :: rest =>
      match s.pending.find? free with
      | some entry => some (entry, s.pending.eraseP free)
      | none => some (first, rest)

theorem size_observeMultiplier_le (field : String) (c : Candidate) (s : System) :
    (s.observeMultiplier field c).size ≤ s.size + 1 := by
  simp only [observeMultiplier]
  split
  · have := Pending.length_push_le field c s.pending
    simp only [observe, size]
    omega
  · omega

theorem size_absorb_le {s t : System} {a : Assignment} (h : s.absorb a = .ok t) :
    t.size ≤ s.size + 1 := by
  simp only [absorb] at h
  split at h
  · cases h
    exact size_observeMultiplier_le _ _ _
  · split at h
    · next decoder _ =>
        cases hinv : decoder.inverse with
        | error e => simp [hinv, bind, Except.bind] at h
        | ok encoder =>
            simp only [hinv, bind, Except.bind, pure, Except.pure, Except.ok.injEq] at h
            subst h
            exact size_observeMultiplier_le _ _ _
    · cases h
      simp only [size, List.length_append, List.length_cons, List.length_nil]
      omega

theorem size_foldlM_absorb_le {assignments : List Assignment} {s t : System}
    (h : assignments.foldlM absorb s = .ok t) : t.size ≤ s.size + assignments.length := by
  induction assignments generalizing s with
  | nil =>
      simp only [List.foldlM_nil, pure, Except.pure, Except.ok.injEq] at h
      subst h
      simp
  | cons a rest ih =>
      simp only [List.foldlM_cons, bind, Except.bind] at h
      split at h
      · simp at h
      · next middle hmiddle =>
          have := size_absorb_le hmiddle
          have := ih h
          simp only [List.length_cons]
          omega

/-- Simplifying never adds to what is left to do. -/
theorem size_simplify_le {s t : System} (h : s.simplify = .ok t) : t.size ≤ s.size := by
  have := size_foldlM_absorb_le h
  simp only [size, List.length_nil] at this
  simp only [size]
  omega

/-- Settling a field leaves one field less. -/
theorem length_next? {s : System} {entry : String × List Candidate} {rest : Pending}
    (h : s.next? = some (entry, rest)) : rest.length < s.pending.length := by
  simp only [next?] at h
  split at h
  · simp at h
  · next first others hpending =>
      split at h
      · next found hfound =>
          simp only [Option.some.injEq, Prod.mk.injEq] at h
          obtain ⟨rfl, rfl⟩ := h
          rw [List.length_eraseP_of_mem (List.mem_of_find?_eq_some hfound)
            (List.find?_some hfound)]
          rw [hpending]
          simp
      · simp only [Option.some.injEq, Prod.mk.injEq] at h
        obtain ⟨rfl, rfl⟩ := h
        simp [hpending]

/-- Settles one field after another until no candidate is left: the warnings and the decoders.  Every
round settles a field, and only assignments can bring in new ones. -/
def solve (s : System) : List Notice × Except NotInvertible Decoders :=
  match hsimplify : s.simplify with
  | .error e => (s.notices, .error e)
  | .ok t =>
      match hnext : t.next? with
      | none => (t.notices, .ok t.decoders)
      | some ((field, candidates), rest) =>
          match choose field candidates.reverse with
          | .error e => (t.notices, .error e)
          | .ok (decoder?, notices) =>
              have := size_simplify_le hsimplify
              have := length_next? hnext
              solve { t with
                pending := rest
                decoders := match decoder? with
                  | some decoder => Decoders.insert field decoder t.decoders
                  | none => t.decoders
                notices := t.notices ++ notices }
termination_by s.size
decreasing_by
  simp only [size] at *
  omega

end System

end Unscramble.Multiplier
