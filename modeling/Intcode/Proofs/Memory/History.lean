import Mathlib.Data.List.Induction
import Mathlib.Data.Finset.Dedup
import Mathlib.Data.Finset.Card
import Intcode.Memory

/-!
# A memory and its history

A memory begins with an image and is then read, written and looked at in any order. What it is at any
time can be told from the image and from what was done to it: an address holds the last word that was
written to it, else the word of the image, else zero (`get_after`), and the touched addresses are those
of the image and those that were read or written (`contains_after`). To look at a memory leaves no trace.

The tree of cells holds each touched address once and in order, whatever the history (`pairwise_toList`,
`mem_toList_iff`). So the two views give its size and its list too.

## Shape of the proof

One operation changes the two views in a way that does not depend on how the memory came about
(`get_perform`, `contains_perform`). The history is extended by the operation at the same time, so both
views agree with the history after each operation if they did before, and for an empty history they are
those of the image.
-/

namespace Intcode.Memory

/-! ## Histories -/

/-- Something that is done to a memory. -/
inductive Operation where
  | read (address : Word)
  | get (address : Word)
  | write (address value : Word)
  | contains (address : Word)
  | list
  | dump (length : Nat)

/-- The memory that an operation leaves. -/
def perform (m : Memory) : Operation → Memory
  | .read address => (m.read address).2
  | .write address value => m.write address value
  | .get _ | .contains _ | .list | .dump _ => m

/-- The memory that operations leave, one after the other. -/
def after (m : Memory) (history : List Operation) : Memory :=
  history.foldl perform m

namespace Operation

/-- The address that an operation reads or writes. -/
def address? : Operation → Option Word
  | .read address => some address
  | .write address _ => some address
  | .get _ | .contains _ | .list | .dump _ => none

/-- What an operation writes to an address. -/
def writtenTo? (address : Word) : Operation → Option Word
  | .write target value => if target = address then some value else none
  | .read _ | .get _ | .contains _ | .list | .dump _ => none

end Operation

/-- The last word that was written to an address. -/
def lastWritten? (history : List Operation) (address : Word) : Option Word :=
  history.reverse.findSome? (Operation.writtenTo? address)

/-- The word of an image at an address. It is zero outside of the image. -/
def imageWord (image : List Word) (address : Word) : Word :=
  if 0 ≤ address then image.getD address.toNat 0 else 0

/-- What an address should hold: the last word that was written to it, else the word of the image. -/
def held (image : List Word) (history : List Operation) (address : Word) : Word :=
  (lastWritten? history address).getD (imageWord image address)

/-- The addresses that should be touched: those of the image, and those that were read or written. -/
def touched (image : List Word) (history : List Operation) : Finset Word :=
  ((List.range image.length).map (fun (i : Nat) => (i : Word)) ++
    history.filterMap Operation.address?).toFinset

variable {m : Memory} {image : List Word} {history : List Operation} {a : Word}

theorem mem_touched_nil_iff : a ∈ touched image [] ↔ 0 ≤ a ∧ a < image.length := by
  simp only [touched, List.filterMap_nil, List.append_nil, List.mem_toFinset, List.mem_map,
    List.mem_range]
  constructor
  · rintro ⟨i, hi, rfl⟩
    exact ⟨Int.natCast_nonneg i, Int.ofNat_lt.mpr hi⟩
  · rintro ⟨hnonneg, hlt⟩
    exact ⟨a.toNat, (Int.toNat_lt hnonneg).mpr hlt, Int.toNat_of_nonneg hnonneg⟩

theorem mem_touched_iff : a ∈ touched image history ↔
    (0 ≤ a ∧ a < image.length) ∨ ∃ op ∈ history, op.address? = some a := by
  rw [← mem_touched_nil_iff]
  simp [touched]

/-! ## One operation -/

theorem get_perform (m : Memory) (op : Operation) (a : Word) :
    (m.perform op).get a = (op.writtenTo? a).getD (m.get a) := by
  cases op with
  | read b => exact get_touch m b a
  | write b v =>
    rw [perform, get_write, Operation.writtenTo?]
    split <;> rfl
  | get | contains | list | dump => rfl

theorem contains_perform (m : Memory) (op : Operation) (a : Word) :
    (m.perform op).contains a = true ↔ m.contains a = true ∨ op.address? = some a := by
  cases op with
  | read b => simp [perform, read, Operation.address?, or_comm]
  | write b v => simp [perform, Operation.address?, or_comm]
  | get | contains | list | dump => simp [perform, Operation.address?]

/-! ## The image -/

theorem ofProgram_nil : ofProgram ⟨[]⟩ = empty := rfl

theorem contains_image (image : List Word) (a : Word) :
    (ofProgram ⟨image⟩).contains a = true ↔ a ∈ touched image [] := by
  rw [contains_ofProgram, mem_touched_nil_iff]
  constructor
  · rintro ⟨i, rfl, hi⟩
    exact ⟨Int.natCast_nonneg i, Int.ofNat_lt.mpr hi⟩
  · rintro ⟨hnonneg, hlt⟩
    exact ⟨a.toNat, (Int.toNat_of_nonneg hnonneg).symm, (Int.toNat_lt hnonneg).mpr hlt⟩

theorem get_image (image : List Word) (a : Word) : (ofProgram ⟨image⟩).get a = imageWord image a := by
  by_cases ha : a ∈ touched image []
  · obtain ⟨hnonneg, hlt⟩ := mem_touched_nil_iff.mp ha
    obtain ⟨i, rfl⟩ := Int.eq_ofNat_of_zero_le hnonneg
    have hword := List.getElem?_eq_getElem (Int.ofNat_lt.mp hlt)
    rw [get_ofProgram hword, imageWord, if_pos hnonneg, Int.toNat_natCast,
      List.getD_eq_getElem?_getD, hword]
    rfl
  · have huntouched := Bool.eq_false_iff.mpr fun h => ha ((contains_image image a).mp h)
    rw [get_eq_zero huntouched, imageWord]
    split
    · next hnonneg =>
      have hle : image.length ≤ a.toNat := Nat.le_of_not_lt fun hlt =>
        ha (mem_touched_nil_iff.mpr ⟨hnonneg, (Int.toNat_lt hnonneg).mp hlt⟩)
      rw [List.getD_eq_getElem?_getD, List.getElem?_eq_none hle]
      rfl
    · rfl

/-! ## A history -/

theorem after_concat (m : Memory) (history : List Operation) (op : Operation) :
    m.after (history ++ [op]) = (m.after history).perform op :=
  List.foldl_concat ..

theorem lastWritten?_concat (history : List Operation) (op : Operation) (a : Word) :
    lastWritten? (history ++ [op]) a = (op.writtenTo? a).or (lastWritten? history a) := by
  rw [lastWritten?, List.reverse_concat, List.findSome?_cons]
  cases op.writtenTo? a <;> rfl

/-- What was written last is held, else what the image has. -/
theorem get_after (image : List Word) (history : List Operation) (a : Word) :
    ((ofProgram ⟨image⟩).after history).get a = held image history a := by
  induction history using List.reverseRecOn with
  | nil => exact get_image image a
  | append_singleton history op ih =>
    rw [after_concat, get_perform, ih, held, held, lastWritten?_concat]
    cases op.writtenTo? a <;> rfl

/-- Only the image, reads and writes touch an address. -/
theorem contains_after (image : List Word) (history : List Operation) (a : Word) :
    ((ofProgram ⟨image⟩).after history).contains a = true ↔ a ∈ touched image history := by
  induction history using List.reverseRecOn with
  | nil => exact contains_image image a
  | append_singleton history op ih =>
    rw [after_concat, contains_perform, ih, mem_touched_iff, mem_touched_iff, or_assoc]
    simp only [List.mem_append, List.mem_singleton, or_and_right, exists_or, exists_eq_left]

/-! ## The touched cells as a list -/

theorem pairwise_toList (m : Memory) : (m.toList.map Prod.fst).Pairwise (· < ·) := by
  rw [List.pairwise_map]
  exact Std.ExtTreeMap.ordered_keys_toList.imp fun h => Int.compare_eq_lt.mp h

theorem mem_toList_iff {v : Word} : (a, v) ∈ m.toList ↔ m.contains a = true ∧ v = m.get a := by
  rw [toList, Std.ExtTreeMap.mem_toList_iff_getElem?_eq_some, contains, get,
    Std.ExtTreeMap.contains_eq_isSome_getElem?, Std.ExtTreeMap.getD_eq_getD_getElem?]
  cases m.cells[a]? <;> simp [eq_comm]

/-- A touched address is counted once. -/
theorem size_eq_card {s : Finset Word} (h : ∀ a, m.contains a = true ↔ a ∈ s) : m.size = s.card := by
  have hkeys : m.cells.keys.toFinset = s := by
    ext a
    rw [List.mem_toFinset, Std.ExtTreeMap.mem_keys, ← h]
    rfl
  rw [← hkeys, List.toFinset_card_of_nodup Std.ExtTreeMap.nodup_keys, Std.ExtTreeMap.length_keys]
  rfl

/-! ## The law -/

/-- **A memory is what its history says.** It begins with an image, which may be empty. Whatever is done
to it, at any addresses, an address then holds the last word that was written to it, else that of the
image, else zero; the touched addresses are those of the image and those that were read or written; they
are counted once each, and listed once each in increasing order with what they hold. -/
theorem memory_reflects_history :
    ofProgram ⟨[]⟩ = empty ∧
    ∀ (image : List Word) (history : List Operation),
      let m := (ofProgram ⟨image⟩).after history
      (∀ a, m.get a = held image history a ∧ (m.read a).1 = held image history a) ∧
      (∀ a, m.contains a = true ↔
        (0 ≤ a ∧ a < image.length) ∨ ∃ op ∈ history, op.address? = some a) ∧
      m.size = (touched image history).card ∧
      (m.toList.map Prod.fst).Pairwise (· < ·) ∧
      (∀ a v, (a, v) ∈ m.toList ↔ a ∈ touched image history ∧ v = held image history a) ∧
      ∀ length, m.dump length = (List.range length).map fun (i : Nat) => held image history i := by
  refine ⟨ofProgram_nil, fun image history => ?_⟩
  intro m
  have hget := get_after image history
  have hcontains := contains_after image history
  refine ⟨fun a => ⟨hget a, hget a⟩, fun a => (hcontains a).trans mem_touched_iff,
    size_eq_card hcontains, pairwise_toList m, fun a v => ?_,
    fun length => List.map_congr_left fun i _ => hget i⟩
  rw [mem_toList_iff, hcontains, hget]

/-- Looking at addresses leaves no trace, and reading far away does. -/
example :
    let m := (ofProgram ⟨[7, 8]⟩).after
      [.write 1 (-4), .get 5, .read (2 ^ 70), .write (-3) 6, .contains 9, .write 1 2, .list, .dump 20]
    m.toList = [(-3, 6), (0, 7), (1, 2), (2 ^ 70, 0)] ∧ m.size = 4 ∧ m.dump 4 = [7, 2, 0, 0] := by
  decide +kernel

end Intcode.Memory
