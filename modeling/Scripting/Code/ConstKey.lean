import Std.Data.TreeMap

/-!
# Keys of constants

Constants are kept once: scalars by value, other objects by identity. Keys are ordered so that they can
be looked up.
-/

namespace Scripting

/-- What two constants share exactly if one of them is enough. -/
inductive ConstKey where
  | int (bits : UInt64)
  | float (bits : UInt64)
  | str (s : String)
  | bool (b : Bool)
  | char (bits : UInt32)
  | unit
  | object (kind : String) (id : Nat)
deriving DecidableEq

namespace ConstKey

def kind : ConstKey → Nat
  | int _ => 0
  | float _ => 1
  | str _ => 2
  | bool _ => 3
  | char _ => 4
  | unit => 5
  | object .. => 6

def number : ConstKey → Nat
  | int bits | float bits => bits.toNat
  | bool b => b.toNat
  | char bits => bits.toNat
  | object _ id => id
  | _ => 0

def text : ConstKey → String
  | str s => s
  | object kind _ => kind
  | _ => ""

theorem ext_parts {a b : ConstKey} (hkind : a.kind = b.kind) (hnumber : a.number = b.number)
    (htext : a.text = b.text) : a = b := by
  cases a <;> cases b <;> simp_all [kind, number, text, UInt64.toNat_inj, UInt32.toNat_inj]
  case bool.bool b c => cases b <;> cases c <;> simp_all

instance : Ord ConstKey :=
  ⟨compareLex (compareOn kind) (compareLex (compareOn number) (compareOn text))⟩

instance : Std.TransOrd ConstKey :=
  inferInstanceAs
    (Std.TransCmp (compareLex (compareOn kind) (compareLex (compareOn number) (compareOn text))))

instance : Std.LawfulEqOrd ConstKey where
  eq_of_compare h := by
    obtain ⟨hkind, h⟩ := compareLex_eq_eq.mp h
    obtain ⟨hnumber, htext⟩ := compareLex_eq_eq.mp h
    exact ext_parts (Std.LawfulEqOrd.eq_of_compare hkind) (Std.LawfulEqOrd.eq_of_compare hnumber)
      (Std.LawfulEqOrd.eq_of_compare htext)

end ConstKey

end Scripting
