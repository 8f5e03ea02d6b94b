import Mathlib

/-! Numbers as bytes, the most significant one first. -/
namespace Lib

/-- The last `n` bytes of a number. -/
def beBytes : ℕ → ℕ → List UInt8
  | 0,_ => []
  | n+1,v => beBytes n (v/256) ++ [UInt8.ofNat v]

theorem beBytes_succ (n v : ℕ) : beBytes (n+1) v = beBytes n (v/256) ++ [UInt8.ofNat v] := rfl

def ofBe (bs : List UInt8) : ℕ := bs.foldl (fun acc b => acc*256+b.toNat) 0

@[simp] theorem length_beBytes (n v : ℕ) : (beBytes n v).length = n := by
  induction n generalizing v with
  | zero => rfl
  | succ n ih => simp only [beBytes_succ,List.length_append,List.length_singleton,ih]

theorem ofBe_append (as : List UInt8) (b : UInt8) : ofBe (as ++ [b]) = ofBe as*256+b.toNat := by
  simp only [ofBe,List.foldl_append,List.foldl_cons,List.foldl_nil]

theorem ofBe_beBytes (n v : ℕ) : ofBe (beBytes n v) = v%256^n := by
  induction n generalizing v with
  | zero => simp [beBytes,ofBe,Nat.mod_one]
  | succ n ih =>
    have hpow : 256^(n+1) = 256*256^n := Nat.pow_succ'
    rw [beBytes_succ,ofBe_append,ih,UInt8.toNat_ofNat',hpow,Nat.mod_mul]
    omega

theorem ofBe_lt (bs : List UInt8) : ofBe bs < 256^bs.length := by
  induction bs using List.reverseRecOn with
  | nil => simp [ofBe]
  | append_singleton bs b ih =>
    have hb := b.toNat_lt
    rw [ofBe_append,List.length_append,List.length_singleton,Nat.pow_succ]
    omega

theorem ofBe_beBytes_of_lt {n v : ℕ} (h : v < 256^n) : ofBe (beBytes n v) = v := by
  rw [ofBe_beBytes,Nat.mod_eq_of_lt h]

end Lib
