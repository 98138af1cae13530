import NetBSD.Lib.Wrapping
import NetBSD.Lib.LongDivision

/-!
# Division of quads

`__qdivrem`, for a `u_long` of 32 bits and digits of 16. Arrays are given by their cells, pointers into them by an index; `keep` is
what a variable keeps of the value stored in it.
-/

namespace NetBSD.Quad

open NetBSD.Lib Function

inductive CType where
  | digit
  | uLong
  deriving DecidableEq

def CType.size : CType → Int
  | digit => 65536
  | uLong => 4294967296

def B : Int := 65536

def lhalf (x : Int) : Int := x % 65536

def hhalf (x : Int) : Int := x / 65536

def or (x y : Int) : Int := (x.toNat ||| y.toNat : Nat)

abbrev Space := Nat → Int

section

variable (keep : CType → Int → Int)

def combine (a b : Int) : Logged CType Int := .store keep .uLong (or (a * 65536) b)

def set (p : Space) (i : Nat) (x : Int) : Logged CType Space := do
  let x ← .store keep .digit x
  pure (update p i x)

def shl (sh : Nat) : (len : Nat) → (p : Space) → (i : Nat) → Logged CType Space
  | 0, p, i => set keep p i (lhalf (p i * 2 ^ sh))
  | len + 1, p, i => do
      let p ← set keep p i (or (lhalf (p i * 2 ^ sh)) (p (i + 1) / 2 ^ (16 - sh)))
      shl sh len p (i + 1)

def digits (q : Int) (p : Space) : Logged CType Space := do
  let p ← set keep p 1 (hhalf (q / 4294967296))
  let p ← set keep p 2 (lhalf (q / 4294967296))
  let p ← set keep p 3 (hhalf (q % 4294967296))
  set keep p 4 (lhalf (q % 4294967296))

def quad (d₁ d₂ d₃ d₄ : Int) : Logged CType Int := do
  let high ← combine keep d₁ d₂
  let low ← combine keep d₃ d₄
  pure (high * 4294967296 + low)

def short (u : Space) (t : Int) : Logged CType (Int × Int) := do
  let q₁ ← .store keep .digit (u 1 / t)
  let rbj ← combine keep (u 1 % t) (u 2)
  let q₂ ← .store keep .digit (rbj / t)
  let rbj ← combine keep (rbj % t) (u 3)
  let q₃ ← .store keep .digit (rbj / t)
  let rbj ← combine keep (rbj % t) (u 4)
  let q₄ ← .store keep .digit (rbj / t)
  let q ← quad keep q₁ q₂ q₃ q₄
  pure (q, rbj % t)

/-- `for (n = 4; v[1] == 0; v++)`: `n` and `v`. With `n` down to 1 the loop is left for the division by one digit. -/
def leadV (vspace : Space) : (n v : Nat) → Nat × Nat
  | 0, v => (0, v)
  | n + 1, v => if vspace (v + 1) = 0 then if n = 1 then (1, v) else leadV vspace n (v + 1) else (n + 1, v)

def leadU (uspace : Space) : (m u : Nat) → Logged CType (Nat × Nat)
  | 0, u => if uspace (u + 1) = 0 then .diverge else pure (0, u)
  | m + 1, u => if uspace (u + 1) = 0 then leadU uspace m (u + 1) else pure (m + 1, u)

def zeros : Nat → Space → Logged CType Space
  | 0, q => pure q
  | i + 1, q => do
      let q ← set keep q i 0
      zeros i q

def shift : (fuel : Nat) → (t : Int) → (d : Nat) → Logged CType Nat
  | 0, _, _ => .diverge
  | fuel + 1, t, d =>
    if t < B / 2 then do
      let t ← .store keep .uLong (t * 2)
      shift fuel t (d + 1)
    else pure d

def qhatTooBig (v₁ : Int) (again : Int → Int → Logged CType Int) (qhat rhat : Int) : Logged CType Int := do
  let qhat ← .store keep .uLong (qhat - 1)
  let rhat ← .store keep .uLong (rhat + v₁)
  if B ≤ rhat then pure qhat else again qhat rhat

def whileTooBig (v₁ v₂ uj₂ : Int) : (fuel : Nat) → (qhat rhat : Int) → Logged CType Int
  | 0, _, _ => .diverge
  | fuel + 1, qhat, rhat => do
      let product ← .store keep .uLong (v₂ * qhat)
      let pair ← combine keep rhat uj₂
      if pair < product then qhatTooBig keep v₁ (whileTooBig v₁ v₂ uj₂ fuel) qhat rhat else pure qhat

def calculateQhat (v₁ v₂ uj₀ uj₁ uj₂ : Int) : Logged CType Int :=
  if uj₀ = v₁ then do
    let qhat ← .store keep .uLong B
    let rhat ← .store keep .uLong uj₁
    qhatTooBig keep v₁ (whileTooBig keep v₁ v₂ uj₂ 2) qhat rhat
  else do
    let n ← combine keep uj₀ uj₁
    let qhat ← .store keep .uLong (n / v₁)
    let rhat ← .store keep .uLong (n % v₁)
    whileTooBig keep v₁ v₂ uj₂ 2 qhat rhat

def mulSub (qhat : Int) (vspace : Space) (v j : Nat) : (i : Nat) → (uspace : Space) → (t : Int) → Logged CType (Space × Int)
  | 0, uspace, t => pure (uspace, t)
  | i + 1, uspace, t => do
      let t ← .store keep .uLong (uspace (j + (i + 1)) - vspace (v + (i + 1)) * qhat - t)
      let uspace ← set keep uspace (j + (i + 1)) (lhalf t)
      let t ← .store keep .uLong ((B - hhalf t) % B)
      mulSub qhat vspace v j i uspace t

def addBack (vspace : Space) (v j : Nat) : (i : Nat) → (uspace : Space) → (t : Int) → Logged CType (Space × Int)
  | 0, uspace, t => pure (uspace, t)
  | i + 1, uspace, t => do
      let t ← .store keep .uLong (t + (uspace (j + (i + 1)) + vspace (v + (i + 1))))
      let uspace ← set keep uspace (j + (i + 1)) (lhalf t)
      let t ← .store keep .uLong (hhalf t)
      addBack vspace v j i uspace t

def turn (vspace : Space) (v n j : Nat) (uspace : Space) : Logged CType (Space × Int) := do
  let qhat ← calculateQhat keep (vspace (v + 1)) (vspace (v + 2)) (uspace j) (uspace (j + 1)) (uspace (j + 2))
  let subtracted ← mulSub keep qhat vspace v j n uspace 0
  let t ← .store keep .uLong (subtracted.1 j - subtracted.2)
  let uspace ← set keep subtracted.1 j (lhalf t)
  if hhalf t ≠ 0 then do
    let qhat ← .store keep .uLong (qhat - 1)
    let added ← addBack keep vspace v j n uspace 0
    let uspace ← set keep added.1 j (lhalf (added.1 j + added.2))
    pure (uspace, qhat)
  else pure (uspace, qhat)

def turns (vspace : Space) (v n : Nat) : (rest j q : Nat) → (uspace qspace : Space) → Logged CType (Space × Space)
  | 0, _, _, uspace, qspace => pure (uspace, qspace)
  | rest + 1, j, q, uspace, qspace => do
      let left ← turn keep vspace v n j uspace
      let qspace ← set keep qspace q left.2
      turns vspace v n rest (j + 1) (q + 1) left.1 qspace

def shiftBack (d m : Nat) : (k : Nat) → Space → Logged CType Space
  | 0, uspace => set keep uspace m 0
  | k + 1, uspace => do
      let uspace ← set keep uspace (m + (k + 1)) (or (uspace (m + (k + 1)) / 2 ^ d) (lhalf (uspace (m + k) * 2 ^ (16 - d))))
      shiftBack d m k uspace

def normalize (d len : Nat) (p : Space) (i : Nat) : Logged CType Space := if 0 < d then shl keep d len p i else pure p

def denormalize (d m n : Nat) (uspace : Space) : Logged CType Space :=
  if 0 < d then shiftBack keep d m n uspace else pure uspace

def long (uspace vspace qspace : Space) (n v : Nat) : Logged CType (Int × Int) := do
  let lead ← leadU uspace (4 - n) 0
  let m := lead.1
  let u := lead.2
  let qspace ← zeros keep (4 - m) qspace
  let d ← shift keep 16 (vspace (v + 1)) 0
  let uspace ← normalize keep d (m + n) uspace u
  let vspace ← normalize keep d (n - 1) vspace (v + 1)
  let left ← turns keep vspace v n (m + 1) u (4 - m) uspace qspace
  let uspace ← denormalize keep d (u + m) n left.1
  let r ← quad keep (uspace 1) (uspace 2) (uspace 3) (uspace 4)
  let q ← quad keep (left.2 1) (left.2 2) (left.2 3) (left.2 4)
  pure (q, r)

/-- `__qdivrem`, of a divisor that is not zero; the arrays hold anything at first. What is returned, and `*arq`. -/
def qdivrem (uspace vspace qspace : Space) (uq vq : Int) : Logged CType (Int × Int) :=
  if uq < vq then pure (0, uq) else do
    let uspace ← set keep uspace 0 0
    let uspace ← digits keep uq uspace
    let vspace ← digits keep vq vspace
    let lead := leadV vspace 4 0
    if lead.1 = 1 then short keep uspace (vspace (lead.2 + 2)) else long keep uspace vspace qspace lead.1 lead.2

end

end NetBSD.Quad
