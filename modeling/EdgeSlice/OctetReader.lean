import EdgeSlice.BigEndian
import Mathlib.Data.Int.Notation
import Mathlib.Logic.Function.Basic

/-! Decoders that watch the buffer they read and the arrays they fill. -/

namespace EdgeSlice

/-- What keeps a decoder from its end: a read behind the buffer, a write behind an array, the end of the
program, the end of the fuel, or an early return. -/
inductive Stop
  | overread
  | overwrite
  | abort
  | running
  | code (c : ℤ)
  deriving DecidableEq

/-- A decoder keeps to `len` octets, which it may refuse. -/
def Sound {α : Type} (len : ℕ) : Except Stop (ℕ × α) → Prop
  | .ok (n, _) => n ≤ len
  | .error (.code c) => c ≤ 0
  | .error _ => False

instance {α : Type} (len : ℕ) : (result : Except Stop (ℕ × α)) → Decidable (Sound len result)
  | .ok (n, _) => inferInstanceAs (Decidable (n ≤ len))
  | .error (.code c) => inferInstanceAs (Decidable (c ≤ 0))
  | .error .overread | .error .overwrite | .error .abort | .error .running => isFalse id

namespace OctetReader

open Function

variable {α β : Type} {buffer bs rest : List UInt8} {b : UInt8} {i n : ℕ}

def octet (buffer : List UInt8) (i : ℕ) : Except Stop UInt8 :=
  match buffer.drop i with
  | [] => .error .overread
  | b :: _ => .ok b

def octets (buffer : List UInt8) (i n : ℕ) : Except Stop (List UInt8) :=
  if n ≤ (buffer.drop i).length then .ok ((buffer.drop i).take n) else .error .overread

/-- Assigns to an entry of an array of the given size. -/
def assign (size : ℕ) (array : ℕ → α) (i : ℕ) (a : α) : Except Stop (ℕ → α) :=
  if i < size then .ok (update array i a) else .error .overwrite

/-- The difference of two numbers of type `uint32_t`. -/
def uint32Sub (a b : ℕ) : ℕ := (a + (4294967296 - b % 4294967296)) % 4294967296

theorem uint32Sub_of_le {a b : ℕ} (h : b ≤ a) (ha : a < 4294967296) : uint32Sub a b = a - b := by
  unfold uint32Sub
  omega

@[simp] theorem ok_bind {ε : Type} (a : α) (f : α → Except ε β) : (Except.ok a >>= f) = f a := rfl

@[simp] theorem error_bind {ε : Type} (e : ε) (f : α → Except ε β) :
    (Except.error e >>= f) = .error e := rfl

@[simp] theorem pure_eq_ok {ε : Type} (a : α) : (pure a : Except ε α) = .ok a := rfl

@[simp] theorem throw_eq_error {ε : Type} (e : ε) : (throw e : Except ε α) = .error e := rfl

theorem octet_of_drop (h : buffer.drop i = b :: rest) : octet buffer i = .ok b := by
  rw [octet, h]

theorem octet_of_end (h : buffer.drop i = []) : octet buffer i = .error .overread := by
  rw [octet, h]

theorem octets_of_drop (h : buffer.drop i = bs ++ rest) : octets buffer i bs.length = .ok bs := by
  rw [octets, h, if_pos (by simp), List.take_left]

theorem octets_of_le (h : n ≤ (buffer.drop i).length) :
    octets buffer i n = .ok ((buffer.drop i).take n) := if_pos h

theorem octets_of_lt (h : (buffer.drop i).length < n) : octets buffer i n = .error .overread :=
  if_neg (Nat.not_le.2 h)

theorem assign_of_lt {size : ℕ} {array : ℕ → α} {a : α} (h : i < size) :
    assign size array i a = .ok (update array i a) := if_pos h

theorem assign_of_le {size : ℕ} {array : ℕ → α} {a : α} (h : size ≤ i) :
    assign size array i a = .error .overwrite := if_neg (Nat.not_lt.2 h)

theorem drop_succ (h : buffer.drop i = b :: rest) : buffer.drop (i + 1) = rest := by
  rw [← List.drop_drop, h]
  rfl

theorem drop_add (h : buffer.drop i = bs ++ rest) : buffer.drop (i + bs.length) = rest := by
  rw [← List.drop_drop, h, List.drop_left]

end OctetReader

end EdgeSlice
