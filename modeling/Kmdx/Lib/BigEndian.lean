import Mathlib.Data.List.Induction
import Mathlib.Tactic.Ring

/-!
# Big-endian numbers

Numbers as lists of bytes, the most significant first, and back. Both ways round over a fixed width
(`toBytes_ofBytes`, `ofBytes_toBytes`).
-/

namespace BigEndian

def ofBytes (l : List UInt8) : Nat := l.foldl (fun n b => n * 256 + b.toNat) 0

/-- The last `w` bytes of `n`. -/
def toBytes : Nat → Nat → List UInt8
  | 0, _ => []
  | w + 1, n => toBytes w (n / 256) ++ [UInt8.ofNat n]

@[simp] theorem length_toBytes (w n : Nat) : (toBytes w n).length = w := by
  induction w generalizing n with
  | zero => rfl
  | succ w ih => simp [toBytes, ih]

theorem ofBytes_concat (l : List UInt8) (b : UInt8) :
    ofBytes (l ++ [b]) = ofBytes l * 256 + b.toNat := by
  simp [ofBytes, List.foldl_append]

theorem ofBytes_append (l l' : List UInt8) :
    ofBytes (l ++ l') = ofBytes l * 256 ^ l'.length + ofBytes l' := by
  induction l' using List.reverseRecOn with
  | nil => simp [ofBytes]
  | append_singleton l' b ih =>
    rw [← List.append_assoc, ofBytes_concat, ofBytes_concat, ih, List.length_append,
      List.length_singleton, Nat.pow_succ]
    ring

theorem ofBytes_lt (l : List UInt8) : ofBytes l < 256 ^ l.length := by
  induction l using List.reverseRecOn with
  | nil => simp [ofBytes]
  | append_singleton l b ih =>
    have hb := b.toNat_lt
    rw [ofBytes_concat, List.length_append, List.length_singleton, Nat.pow_succ]
    omega

theorem toBytes_ofBytes (l : List UInt8) : toBytes l.length (ofBytes l) = l := by
  induction l using List.reverseRecOn with
  | nil => rfl
  | append_singleton l b ih =>
    have hb := b.toNat_lt
    have hdiv : (ofBytes l * 256 + b.toNat) / 256 = ofBytes l := by omega
    have hlast : UInt8.ofNat (ofBytes l * 256 + b.toNat) = b := by
      apply UInt8.toNat_inj.1
      rw [UInt8.toNat_ofNat']
      omega
    rw [List.length_append, List.length_singleton, ofBytes_concat, toBytes, hdiv, hlast, ih]

theorem ofBytes_toBytes (w n : Nat) : ofBytes (toBytes w n) = n % 256 ^ w := by
  induction w generalizing n with
  | zero => simp [toBytes, ofBytes, Nat.mod_one]
  | succ w ih =>
    have hmod := Nat.mod_mul (x := n) (a := 256) (b := 256 ^ w)
    rw [toBytes, ofBytes_concat, ih, UInt8.toNat_ofNat', Nat.pow_succ' (n := w), hmod]
    omega

theorem ofBytes_replicate_zero (n : Nat) : ofBytes (List.replicate n 0) = 0 := by
  induction n with
  | zero => rfl
  | succ n ih => rw [List.replicate_succ', ofBytes_concat, ih]; rfl

end BigEndian
