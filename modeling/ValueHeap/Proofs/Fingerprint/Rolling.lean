import Mathlib.Logic.ExistsUnique
import Mathlib.Logic.Function.Basic
import ValueHeap.Proofs.Fingerprints

/-!
# A changed byte shows in the fingerprint

Texts, byte strings, floats and complex numbers have their bytes rolled into their fingerprint: for
every byte the hash so far is multiplied, and the byte is combined with it by exclusive or.  Both
can be undone.  The multiplier is odd, hence it has an inverse modulo `2 ^ 64`, and exclusive or
with the same word twice is nothing at all.  So bytes that are rolled in can be rolled out again,
whatever they are: they shuffle the words of 64 bits.

A byte that is changed makes the hash another one, then, and the bytes behind it, which are the
same, never bring the two hashes together again.

## What is here

* `Fingerprint.unrolling` — bytes rolled out of a hash.
* `Fingerprint.rolling_bijective` and `Fingerprint.rolling_one_byte`.
* `DifferOnce` — lists that differ at one place.
* `Heap.Rolled` — the values whose bytes are rolled in.
* `deepHash_shows_byte` — **one changed byte always shows**.
-/

set_option autoImplicit false

namespace ValueHeap

namespace Fingerprint

variable {start word : Int64} {data before after : List UInt8} {x y b : UInt8}

/-! ## One byte -/

/-- The word that undoes the multiplication. -/
def inverse : Int64 := -2336937208910341525

theorem multiplier_mul_inverse : (1000003 : Int64) * inverse = 1 := by decide +kernel

/-- Takes a byte out of a hash. -/
def unroll (word : Int64) (b : UInt8) : Int64 := (word ^^^ b.toInt8.toInt64) * inverse

theorem unroll_roll (start : Int64) (b : UInt8) :
    unroll ((start * 1000003) ^^^ b.toInt8.toInt64) b = start := by
  rw [unroll, Int64.xor_assoc, Int64.xor_self, Int64.xor_zero, Int64.mul_assoc,
    multiplier_mul_inverse, Int64.mul_one]

theorem roll_unroll (word : Int64) (b : UInt8) :
    (unroll word b * 1000003) ^^^ b.toInt8.toInt64 = word := by
  rw [unroll, Int64.mul_assoc, Int64.mul_comm inverse, multiplier_mul_inverse, Int64.mul_one,
    Int64.xor_assoc, Int64.xor_self, Int64.xor_zero]

/-- Bytes that are different are different as signed numbers. -/
theorem signed_injective : Function.Injective fun b : UInt8 => b.toInt8.toInt64 :=
  Function.LeftInverse.injective (g := fun n : Int64 => n.toInt8.toUInt8) fun b =>
    (congrArg Int8.toUInt8 (Int8.toInt8_toInt64 b.toInt8)).trans (UInt8.toUInt8_toInt8 b)

/-! ## All bytes -/

/-- Takes bytes out of a hash, the last one first. -/
def unrolling (word : Int64) (data : List UInt8) : Int64 :=
  data.foldr (fun b w => unroll w b) word

theorem rolling_cons (start : Int64) (b : UInt8) (data : List UInt8) :
    rolling start (b :: data) = rolling ((start * 1000003) ^^^ b.toInt8.toInt64) data := rfl

theorem rolling_append (start : Int64) (data more : List UInt8) :
    rolling start (data ++ more) = rolling (rolling start data) more :=
  List.foldl_append

theorem unrolling_rolling (start : Int64) (data : List UInt8) :
    unrolling (rolling start data) data = start := by
  induction data generalizing start with
  | nil => rfl
  | cons b data ih =>
    rw [rolling_cons, unrolling, List.foldr_cons, ← unrolling, ih, unroll_roll]

theorem rolling_unrolling (word : Int64) (data : List UInt8) :
    rolling (unrolling word data) data = word := by
  induction data with
  | nil => rfl
  | cons b data ih =>
    rw [unrolling, List.foldr_cons, ← unrolling, rolling_cons, roll_unroll, ih]

/-- **Bytes that are rolled in shuffle the words.** -/
theorem rolling_bijective (data : List UInt8) :
    Function.Bijective fun start => rolling start data :=
  Function.bijective_iff_has_inverse.2 ⟨fun word => unrolling word data,
    fun start => unrolling_rolling start data, fun word => rolling_unrolling word data⟩

/-- One byte among others is told by the hash. -/
theorem rolling_one_byte :
    rolling start (before ++ [x] ++ after) = rolling start (before ++ [y] ++ after) ↔ x = y := by
  simp only [rolling_append, (rolling_bijective after).injective.eq_iff, rolling_cons]
  exact (Int64.xor_right_inj _).trans signed_injective.eq_iff

end Fingerprint

/-! ## Values that differ in one byte -/

/-- Lists of the same length that differ at exactly one place. -/
def DifferOnce {α : Type} (l m : List α) : Prop :=
  l.length = m.length ∧ ∃! i : Nat, l[i]? ≠ m[i]?

/-- What is before the place and what is behind it is the same. -/
theorem DifferOnce.exists_append {α : Type} {l m : List α} (hlm : DifferOnce l m) :
    ∃ before x y after, x ≠ y ∧ l = before ++ [x] ++ after ∧ m = before ++ [y] ++ after := by
  obtain ⟨hlength, i, hne, honly⟩ := hlm
  have hsame {j : Nat} (hj : j ≠ i) : l[j]? = m[j]? := by
    by_contra h
    exact hj (honly j h)
  have hi : i < l.length := by
    by_contra hge
    exact hne (by rw [List.getElem?_eq_none (by omega), List.getElem?_eq_none (by omega)])
  have hi' : i < m.length := hlength ▸ hi
  have hbefore : l.take i = m.take i := List.ext_getElem? fun j => by
    rw [List.getElem?_take, List.getElem?_take]
    split
    · next hj => exact hsame hj.ne
    · rfl
  have hafter : l.drop (i + 1) = m.drop (i + 1) := List.ext_getElem? fun j => by
    rw [List.getElem?_drop, List.getElem?_drop]
    exact hsame (by omega)
  refine ⟨l.take i, l[i], m[i], l.drop (i + 1), ?_, ?_, ?_⟩
  · rwa [List.getElem?_eq_getElem hi, List.getElem?_eq_getElem hi', Ne, Option.some_inj] at hne
  · rw [List.append_assoc, List.singleton_append, List.getElem_cons_drop, List.take_append_drop]
  · rw [hbefore, hafter, List.append_assoc, List.singleton_append, List.getElem_cons_drop,
      List.take_append_drop]

/-- Lists that are the same but for one place differ once. -/
theorem differOnce_append {α : Type} (before after : List α) {x y : α} (hxy : x ≠ y) :
    DifferOnce (before ++ [x] ++ after) (before ++ [y] ++ after) := by
  refine ⟨by simp, before.length, by simpa using hxy, fun i hi => ?_⟩
  by_contra hne
  refine hi ?_
  rcases Nat.lt_or_gt_of_ne hne with hlt | hgt
  · rw [List.append_assoc, List.append_assoc, List.getElem?_append_left hlt,
      List.getElem?_append_left hlt]
  · rw [List.getElem?_append_right (by simpa using hgt),
      List.getElem?_append_right (by simpa using hgt), List.length_append, List.length_append]
    rfl

/-- The value is of a type whose values have their bytes rolled into their fingerprint, and these
are its bytes. -/
inductive Heap.Rolled (h : Heap) : Value → BuiltinType → List UInt8 → Prop
  | str {s : Slot} {text : String} (hs : h.find? s = some (.str text)) :
      Rolled h (.ref s) .str text.toUTF8.data.toList
  | bytes {s : Slot} {data : List UInt8} (hs : h.find? s = some (.bytes data)) :
      Rolled h (.ref s) .bytes data
  | float (x : Binary64) : Rolled h (.float x) .float x.bytes
  | complex {s : Slot} {re im : Binary64} (hs : h.find? s = some (.complex re im)) :
      Rolled h (.ref s) .complex (re.bytes ++ im.bytes)

/-- With any number of levels left, a fingerprint is that of one level. -/
theorem Fingerprint.exists_within_eq (h : Heap) (n : Nat) (v : Value) :
    ∃ inside, within h n v = ofValue h n inside v := by
  cases n with
  | zero => exact ⟨_, rfl⟩
  | succ n => exact ⟨_, rfl⟩

/-- The fingerprint of such a value, whatever the limits are. -/
theorem Heap.Rolled.deepHash_eq {h : Heap} {v : Value} {ty : BuiltinType} {data : List UInt8}
    (hv : h.Rolled v ty data) :
    (deepHash v h).result = .ok (Fingerprint.rolling (Fingerprint.header ty) data) := by
  rw [deepHash, Action.result_consult_eq_ok]
  obtain ⟨inside, heq⟩ := Fingerprint.exists_within_eq h h.levelsLeft v
  rw [heq]
  cases hv with
  | str hs | bytes hs | complex hs =>
    rw [Fingerprint.ofValue, Answer.result_look_bind (read_eq_ok_iff.2 hs)]
    rfl
  | float x => rfl

/-- **One changed byte always shows in the fingerprint.**  Bytes `before` and `after` one place and
the hash that they are rolled into may be any: the hashes with two bytes at the place are different
if the bytes are.  For any bytes the hash before they are rolled in and the one after it determine
each other.  So two texts, two byte strings, two floats or two complex numbers whose bytes differ
once always have fingerprints, and different ones, whatever heaps they are in. -/
theorem deepHash_shows_byte :
    (∀ (start : Int64) (before after : List UInt8) (x y : UInt8), x ≠ y →
      Fingerprint.rolling start (before ++ [x] ++ after) ≠
        Fingerprint.rolling start (before ++ [y] ++ after)) ∧
    (∀ data : List UInt8, Function.Bijective fun start => Fingerprint.rolling start data) ∧
    ∀ (h k : Heap) (v w : Value) (ty : BuiltinType) (data data' : List UInt8),
      h.Rolled v ty data → k.Rolled w ty data' → DifferOnce data data' →
        ∃ a b, (deepHash v h).result = .ok a ∧ (deepHash w k).result = .ok b ∧ a ≠ b := by
  refine ⟨fun start before after x y hxy => mt Fingerprint.rolling_one_byte.1 hxy,
    Fingerprint.rolling_bijective, fun h k v w ty data data' hv hw hdiffer => ?_⟩
  obtain ⟨before, x, y, after, hxy, rfl, rfl⟩ := hdiffer.exists_append
  exact ⟨_, _, hv.deepHash_eq, hw.deepHash_eq, mt Fingerprint.rolling_one_byte.1 hxy⟩

/-- Two words with another first letter, and the two zeros, whose signs are in their last bytes. -/
theorem deepHash_shows_byte_letters :
    (1 : UInt8) ≠ 255 ∧
      Fingerprint.rolling 7 ([] ++ [1] ++ [0, 0]) ≠ Fingerprint.rolling 7 ([] ++ [255] ++ [0, 0]) ∧
      ∃ c : Custody, Reachable .untracked c ∧ c.heap.find? 0 = some (.str "tea") ∧
        c.heap.find? 1 = some (.str "sea") ∧
        DifferOnce "tea".toUTF8.data.toList "sea".toUTF8.data.toList ∧
        (∃ a b, (deepHash (.ref 0) c.heap).result = .ok a ∧
          (deepHash (.ref 1) c.heap).result = .ok b ∧ a ≠ b) ∧
        DifferOnce (Binary64.mk 0).bytes (Binary64.mk 0x8000000000000000).bytes ∧
        ∃ a b, (deepHash (.float ⟨0⟩) c.heap).result = .ok a ∧
          (deepHash (.float ⟨0x8000000000000000⟩) c.heap).result = .ok b ∧ a ≠ b := by
  let o : Object := .tuple [.str "tea", .str "sea"]
  let c : Custody := Custody.after ⟨Heap.empty .untracked, 0⟩ (.build o) [.ref 2]
  have hc : Reachable .untracked c :=
    .result [.ref 2] .start (Request.permitted_build o _) (by decide +kernel)
  have htea : c.heap.find? 0 = some (.str "tea") := by decide +kernel
  have hsea : c.heap.find? 1 = some (.str "sea") := by decide +kernel
  have hwords : DifferOnce "tea".toUTF8.data.toList "sea".toUTF8.data.toList :=
    differOnce_append [] [101, 97] (by decide : (116 : UInt8) ≠ 115)
  have hzeros : DifferOnce (Binary64.mk 0).bytes (Binary64.mk 0x8000000000000000).bytes :=
    differOnce_append [0, 0, 0, 0, 0, 0, 0] [] (by decide : (0 : UInt8) ≠ 128)
  obtain ⟨hroll, -, hvalues⟩ := deepHash_shows_byte
  exact ⟨by decide, hroll 7 [] [0, 0] 1 255 (by decide), c, hc, htea, hsea, hwords,
    hvalues c.heap c.heap _ _ .str _ _ (.str htea) (.str hsea) hwords, hzeros,
    hvalues c.heap c.heap _ _ .float _ _ (.float _) (.float _) hzeros⟩

end ValueHeap
