import Std.Data.ExtTreeMap
import Intcode.Program

/-!
# Memory

A memory holds a word at every address. All but finitely many are zero, and it also knows which
addresses have been *touched*: the cells of the program image and every cell that was read or written
since. Touching a cell does not change what any address holds, but the touched cells are counted and
listed, so reading is an operation that yields a memory too.

Addresses are words of any sign; that a machine never uses a negative one is the machine's doing.

## Two views

* `Memory.get` is the total function from addresses to words.
* `Memory.contains` is the set of touched addresses.

Every operation is described by what it does to both, and the two together determine the memory
(`Memory.ext_view`).
-/

namespace Intcode

/-- The touched cells, ordered by address. -/
structure Memory where
  cells : Std.ExtTreeMap Word Word
  deriving DecidableEq

namespace Memory

/-- A memory without touched cells. -/
def empty : Memory :=
  ⟨∅⟩

/-- The memory of a program that has not started: its words in the cells from zero on. -/
def ofProgram (program : Program) : Memory :=
  ⟨.ofList (program.words.zipIdx.map fun (word, address) => ((address : Word), word))⟩

/-- The word at an address. -/
def get (m : Memory) (address : Word) : Word :=
  m.cells.getD address 0

/-- Whether an address has been touched. -/
def contains (m : Memory) (address : Word) : Bool :=
  m.cells.contains address

/-- The number of touched cells. -/
def size (m : Memory) : Nat :=
  m.cells.size

/-- The touched cells in increasing order of address. -/
def toList (m : Memory) : List (Word × Word) :=
  m.cells.toList

/-- The words at the first `length` addresses from zero on. -/
def dump (m : Memory) (length : Nat) : List Word :=
  (List.range length).map fun (address : Nat) => m.get address

/-- Counts an address among the touched ones. -/
def touch (m : Memory) (address : Word) : Memory :=
  ⟨m.cells.insertIfNew address 0⟩

/-- Reads an address, which touches it. -/
def read (m : Memory) (address : Word) : Word × Memory :=
  (m.get address, m.touch address)

/-- Writes to an address, which touches it. -/
def write (m : Memory) (address value : Word) : Memory :=
  ⟨m.cells.insert address value⟩

/-! ## What the operations do to the two views -/

@[simp] theorem get_empty (a : Word) : empty.get a = 0 := by
  simp [get, empty]

@[simp] theorem contains_empty (a : Word) : empty.contains a = false := by
  simp [contains, empty]

@[simp] theorem get_touch (m : Memory) (a b : Word) : (m.touch a).get b = m.get b := by
  simp only [get, touch, Std.ExtTreeMap.getD_insertIfNew]
  split
  · next h =>
    have hb : b ∉ m.cells := by
      have := Std.LawfulEqCmp.eq_of_compare h.1
      exact this ▸ h.2
    exact (Std.ExtTreeMap.getD_eq_fallback hb).symm
  · rfl

@[simp] theorem contains_touch (m : Memory) (a b : Word) :
    (m.touch a).contains b = (decide (a = b) || m.contains b) := by
  by_cases h : a = b <;> simp [contains, touch, Std.ExtTreeMap.contains_insertIfNew, h]

@[simp] theorem get_write (m : Memory) (a v b : Word) :
    (m.write a v).get b = if a = b then v else m.get b := by
  simp [get, write, Std.ExtTreeMap.getD_insert]

@[simp] theorem contains_write (m : Memory) (a v b : Word) :
    (m.write a v).contains b = (decide (a = b) || m.contains b) := by
  by_cases h : a = b <;> simp [contains, write, Std.ExtTreeMap.contains_insert, h]

theorem size_touch_le (m : Memory) (a : Word) : (m.touch a).size ≤ m.size + 1 :=
  Std.ExtTreeMap.size_insertIfNew_le

theorem size_write_le (m : Memory) (a v : Word) : (m.write a v).size ≤ m.size + 1 :=
  Std.ExtTreeMap.size_insert_le

/-- The touched cells of an image are those that its words are in. -/
theorem contains_ofProgram (program : Program) (a : Word) :
    (ofProgram program).contains a = true ↔ ∃ i : Nat, a = i ∧ i < program.words.length := by
  have hkeys : (program.words.zipIdx.map fun (word, address) => ((address : Word), word)).map
      Prod.fst = (List.range program.words.length).map fun (i : Nat) => (i : Word) := by
    rw [List.map_map, List.range_eq_range', ← List.zipIdx_map_snd 0 program.words, List.map_map]
    rfl
  simp only [contains, ofProgram, Std.ExtTreeMap.contains_ofList, hkeys, List.contains_iff_mem,
    List.mem_map, List.mem_range]
  constructor
  · rintro ⟨i, hi, rfl⟩
    exact ⟨i, rfl, hi⟩
  · rintro ⟨i, rfl, hi⟩
    exact ⟨i, hi, rfl⟩

/-- An image holds its words from address zero on. -/
theorem get_ofProgram {program : Program} {i : Nat} {word : Word}
    (h : program.words[i]? = some word) : (ofProgram program).get i = word := by
  refine Std.ExtTreeMap.getD_ofList_of_mem (k := (i : Word)) Std.ReflCmp.compare_self ?_ ?_
  · rw [List.pairwise_map, List.pairwise_iff_getElem]
    intro j k hj hk hlt
    simp only [List.getElem_zipIdx, Nat.zero_add, Std.LawfulEqCmp.compare_eq_iff_eq, Int.natCast_inj]
    omega
  · exact List.mem_map.mpr ⟨(word, i), List.mem_zipIdx_iff_getElem?.mpr h, rfl⟩

/-- An address that was not touched holds zero. -/
theorem get_eq_zero {m : Memory} {a : Word} (h : m.contains a = false) : m.get a = 0 :=
  Std.ExtTreeMap.getD_eq_fallback_of_contains_eq_false h

/-- Two memories that hold the same words and have the same touched cells are equal. -/
theorem ext_view {m n : Memory} (hget : ∀ a, m.get a = n.get a)
    (hcontains : ∀ a, m.contains a = n.contains a) : m = n := by
  obtain ⟨m⟩ := m
  obtain ⟨n⟩ := n
  congr 1
  apply Std.ExtTreeMap.ext_getElem?
  intro a
  have hg := hget a
  have hc := hcontains a
  simp only [get, contains, Std.ExtTreeMap.getD_eq_getD_getElem?,
    Std.ExtTreeMap.contains_eq_isSome_getElem?] at hg hc
  cases hm : m[a]? <;> cases hn : n[a]? <;> simp_all

end Memory

end Intcode
