import NetBSD.Mbuf.Chain
import NetBSD.Lib.Runs
import Mathlib.Logic.Function.Basic

/-!
# Compressed domain names

`dn_expand`, `dn_comp`, `__dn_skipname` and `dn_find` of `res_comp.c`. Pointers into the message are offsets from its
beginning; a text is the bytes before its NUL. There is no result where a loop does not end within the fuel, or a text
is read behind its end.
-/

namespace NetBSD.Resolv

abbrev Message := Nat → Byte

def indirMask : Byte := 0xc0

def maxLabel : Nat := 63

def dot : Byte := 0x2e

def backslash : Byte := 0x5c

def indirection (n low : Byte) : Nat := ((n &&& 0x3f).toNat <<< 8) ||| (low &&& 0xff).toNat

section

variable (msg : Message)

def expandLabel (eomorig length : Nat) : Nat → Nat → List Byte → Option (Nat × List Byte)
  | 0, cp, dn => some (cp, dn)
  | n + 1, cp, dn =>
    let c := msg cp
    if c = dot ∧ dn.length + n + 2 ≥ length then none
    else
      let dn := (if c = dot then dn ++ [backslash] else dn) ++ [c]
      if cp + 1 ≥ eomorig then none else expandLabel eomorig length n (cp + 1) dn

def expandLoop (eomorig compDn length : Nat) :
    Nat → Nat → List Byte → Option Nat → Nat → Option (Int × List Byte)
  | 0, _, _, _, _ => none
  | fuel + 1, cp, dn, len, checked =>
    let n := msg cp
    if n = 0 then some ((len.getD (cp + 1 - compDn) : Nat), dn)
    else if n &&& indirMask = 0 then
      if dn ≠ [] ∧ dn.length ≥ length then some (-1, dn)
      else
        let dn := if dn = [] then dn else dn ++ [dot]
        if dn.length + n.toNat ≥ length then some (-1, dn)
        else
          match expandLabel msg eomorig length n.toNat (cp + 1) dn with
          | none => some (-1, dn)
          | some (cp, dn) => expandLoop eomorig compDn length fuel cp dn len (checked + (n.toNat + 1))
    else if n &&& indirMask = indirMask then
      let len := some (len.getD (cp + 1 - compDn + 1))
      let cp := indirection n (msg (cp + 1))
      if cp ≥ eomorig then some (-1, dn)
      else if checked + 2 ≥ eomorig then some (-1, dn)
      else expandLoop eomorig compDn length fuel cp dn len (checked + 2)
    else some (-1, dn)

/-- `dn_expand`; every turn of its loop but the last looks at a byte of the message that counts. -/
def dnExpand (eomorig compDn length : Nat) : Option (Int × List Byte) :=
  expandLoop msg eomorig compDn length (eomorig + 1) compDn [] none 0

def skipLoop (eom : Nat) : Nat → Nat → Option (Option Nat)
  | 0, _ => none
  | fuel + 1, cp =>
    if cp < eom then
      let n := msg cp
      if n = 0 then some (some (cp + 1))
      else if n &&& indirMask = 0 then skipLoop eom fuel (cp + 1 + n.toNat)
      else if n &&& indirMask = indirMask then some (some (cp + 2))
      else some none
    else some (some cp)

def dnSkipname (compDn eom : Nat) : Option Int :=
  (skipLoop msg eom (eom + 1) compDn).map fun r =>
    match r with
    | none => -1
    | some cp => if cp > eom then -1 else ((cp - compDn : Nat) : Int)

inductive Found where
  | found
  | next
  | illegal

def findLabel : Nat → Nat → List Byte → Option (Option (List Byte))
  | 0, _, dn => some (some dn)
  | n + 1, cp, dn =>
    match dn with
    | [] => if msg cp = 0 then none else some none
    | c :: dn =>
      if c = dot then some none
      else if c = backslash then
        match dn with
        | [] => if msg cp = 0 then none else some none
        | c :: dn => if c = msg cp then findLabel n (cp + 1) dn else some none
      else if c = msg cp then findLabel n (cp + 1) dn else some none

def findName : Nat → Nat → List Byte → Option Found
  | 0, _, _ => none
  | fuel + 1, cp, dn =>
    let n := msg cp
    if n = 0 then some (if dn = [] then .found else .next)
    else if n &&& indirMask = 0 then
      match findLabel msg n.toNat (cp + 1) dn with
      | none => none
      | some none => some .next
      | some (some []) => some (if msg (cp + 1 + n.toNat) = 0 then .found else .next)
      | some (some (c :: dn)) => if c = dot then findName fuel (cp + 1 + n.toNat) dn else some .next
    else if n &&& indirMask = indirMask then findName fuel (indirection n (msg (cp + 1))) dn
    else some .illegal

def dnFind (fuel : Nat) (expDn : List Byte) : List Nat → Option Int
  | [] => some (-1)
  | sp :: cpp =>
    match findName msg fuel sp expDn with
    | none => none
    | some .found => some sp
    | some .next => dnFind fuel expDn cpp
    | some .illegal => some (-1)

end

def compLabel (eob : Nat) : List Byte → Nat → Message → Except Message (List Byte × Nat × Message)
  | [], cp, msg => .ok ([], cp, msg)
  | c :: dn, cp, msg =>
    if c = dot then .ok (dn, cp, msg)
    else if c = backslash then
      match dn with
      | [] => .ok ([], cp, msg)
      | c :: dn => if cp ≥ eob then .error msg else compLabel eob dn (cp + 1) (Function.update msg cp c)
    else if cp ≥ eob then .error msg
    else compLabel eob dn (cp + 1) (Function.update msg cp c)

/-- The pointers in `dnptrs` behind the first, without the null pointer at the end, if `dnptrs` is not null and its
first is not; and the number of pointers from `dnptrs` to `lastdnptr`, if that is not null. -/
structure Dnptrs where
  ptrs : Option (List Nat)
  lastdnptr : Option Nat

def Dnptrs.save (d : Dnptrs) (cp : Nat) : Dnptrs :=
  match d.ptrs, d.lastdnptr with
  | some ptrs, some last => if 1 + ptrs.length + 1 < last then { d with ptrs := some (ptrs ++ [cp]) } else d
  | _, _ => d

def Dnptrs.find (d : Dnptrs) (msg : Message) (fuel : Nat) (expDn : List Byte) : Option Int :=
  match d.ptrs with
  | none => some (-1)
  | some ptrs => dnFind msg fuel expDn ptrs

def Dnptrs.restore (d old : Dnptrs) : Dnptrs := { d with ptrs := old.ptrs }

structure Compressed where
  len : Int
  dnptrs : Dnptrs
  msg : Message

def compEnd (compDn eob cp : Nat) (old d : Dnptrs) (msg : Message) : Compressed :=
  if cp ≥ eob then ⟨-1, d.restore old, msg⟩ else ⟨((cp + 1 - compDn : Nat) : Int), d, Function.update msg cp 0⟩

def compLoop (compDn eob findFuel : Nat) (old : Dnptrs) :
    Nat → List Byte → Nat → Dnptrs → Message → Option Compressed
  | 0, _, _, _, _ => none
  | _ + 1, [], cp, d, msg => some (compEnd compDn eob cp old d msg)
  | fuel + 1, dn@(_ :: _), cp, d, msg =>
    match old.find msg findFuel dn with
    | none => none
    | some l =>
      if l ≥ 0 then
        if cp + 1 ≥ eob then some ⟨-1, d, msg⟩
        else
          let msg := Function.update msg cp (BitVec.ofNat 8 (l.toNat >>> 8) ||| indirMask)
          some ⟨((cp + 2 - compDn : Nat) : Int), d, Function.update msg (cp + 1) (BitVec.ofNat 8 (l.toNat % 256))⟩
      else
        let d := d.save cp
        match compLabel eob dn (cp + 1) msg with
        | .error msg => some ⟨-1, d.restore old, msg⟩
        | .ok (dn, cp', msg) =>
          if cp' = cp + 1 ∧ dn = [] then some (compEnd compDn eob cp old d msg)
          else if cp' = cp + 1 ∨ cp' - cp - 1 > maxLabel then some ⟨-1, d.restore old, msg⟩
          else compLoop compDn eob findFuel old fuel dn cp' d (Function.update msg cp (BitVec.ofNat 8 (cp' - cp - 1)))

def dnComp (findFuel : Nat) (expDn : List Byte) (compDn length : Nat) (d : Dnptrs) (msg : Message) : Option Compressed :=
  compLoop compDn (compDn + length) findFuel d (expDn.length + 1) expDn compDn d msg

end NetBSD.Resolv
