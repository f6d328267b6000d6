import Mathlib.Tactic.Ring
import Scripting.Bundle.Basic
import Scripting.Bundle.Cache

/-!
# Reading what was written

Items are read as they were written, except that a floating-point number is only known to be read as
one: `Cbor.Item.Gives`. So a bundle that can be read has the globals, the code and the script that it was
written with: `Bundle.decode_encode`.

`Cache.keyBytes` puts a byte in front of every module and of the source. Where none of these bytes stands
in the name of a module, `Cache.keyBytes_injective` finds the source and the modules again. Otherwise two
compilations share their bytes, and then their key (`Cache.keyBytes_shared`, `Cache.keyBytes_split`).
-/

namespace Scripting

namespace Cbor

theorem length_bigEndian (w n : Nat) : (bigEndian w n).length = w := by simp [bigEndian]

theorem bigEndian_succ (w n : Nat) :
    bigEndian (w + 1) n = UInt8.ofNat (n / 256 ^ w) :: bigEndian w n := by
  simp [bigEndian, List.range_succ]

theorem foldl_bigEndian (w n k : Nat) :
    (bigEndian w n).foldl (fun n b => n * 256 + b.toNat) k = k * 256 ^ w + n % 256 ^ w := by
  induction w generalizing k with
  | zero => simp [bigEndian, Nat.mod_one]
  | succ w ih =>
    rw [bigEndian_succ, List.foldl_cons, ih, Nat.mod_pow_succ, UInt8.toNat_ofNat']
    ring

theorem ofBigEndian_bigEndian (w n : Nat) : ofBigEndian (bigEndian w n) = n % 256 ^ w := by
  rw [ofBigEndian, foldl_bigEndian]
  simp

theorem take?_append (front rest : List UInt8) :
    take? front.length (front ++ rest) = some (front, rest) := by simp [take?]

theorem head?_wide {major : Nat} (hm : major < 8) {k : Nat} (hk : k < 4) {front : List UInt8}
    (hfront : front.length = 2 ^ k) (rest : List UInt8) :
    head? (UInt8.ofNat (32 * major + (24 + k)) :: front ++ rest)
      = some (major, 24 + k, .definite (ofBigEndian front), rest) := by
  have hfirst : (UInt8.ofNat (32 * major + (24 + k))).toNat = 32 * major + (24 + k) := by
    rw [UInt8.toNat_ofNat']
    omega
  have htake := take?_append front rest
  rw [hfront] at htake
  rw [List.cons_append, head?, hfirst, show (32 * major + (24 + k)) / 32 = major by omega,
    show (32 * major + (24 + k)) % 32 = 24 + k by omega, if_neg (by omega), if_pos (by omega)]
  show (take? (2 ^ (24 + k - 24)) (front ++ rest)).map _ = _
  rw [show 24 + k - 24 = k by omega, htake]
  rfl

theorem head?_head (major : Nat) (hm : major < 8) (n : Nat) (rest : List UInt8) : ∃ info,
    head? (head major n ++ rest) = some (major, info, .definite (n % 2 ^ 64), rest) ∧
      (n < 24 → info = n) := by
  have hwide : ∀ k < 4, n % 256 ^ 2 ^ k = n % 2 ^ 64 →
      head? (UInt8.ofNat (32 * major + (24 + k)) :: bigEndian (2 ^ k) n ++ rest)
        = some (major, 24 + k, .definite (n % 2 ^ 64), rest) := fun k hk hn => by
    rw [head?_wide hm hk (length_bigEndian _ n), ofBigEndian_bigEndian, hn]
  unfold head
  dsimp only
  split
  · rename_i hn
    have hfirst : (UInt8.ofNat (32 * major + n)).toNat = 32 * major + n := by
      rw [UInt8.toNat_ofNat']
      omega
    refine ⟨n, ?_, fun _ => rfl⟩
    rw [List.cons_append, head?, hfirst, show (32 * major + n) / 32 = major by omega,
      show (32 * major + n) % 32 = n by omega, if_pos hn, Nat.mod_eq_of_lt (by omega)]
    rfl
  · split
    · exact ⟨24, hwide 0 (by omega) (by omega), by omega⟩
    · split
      · exact ⟨25, hwide 1 (by omega) (by omega), by omega⟩
      · split
        · exact ⟨26, hwide 2 (by omega) (by omega), by omega⟩
        · exact ⟨27, hwide 3 (by omega) rfl, by omega⟩

theorem head?_floatBytes (x : Double) (rest : List UInt8) : ∃ k < 3, ∃ n,
    head? (floatBytes x ++ rest) = some (7, 25 + k, .definite n, rest) := by
  have hwide : ∀ k < 3, ∀ front : List UInt8, front.length = 2 ^ (k + 1) →
      ∃ j < 3, ∃ n, head? (UInt8.ofNat (249 + k) :: front ++ rest) = some (7, 25 + j, .definite n, rest) := by
    intro k hk front hfront
    have h : head? (UInt8.ofNat (32 * 7 + (24 + (k + 1))) :: front ++ rest)
        = some (7, 24 + (k + 1), .definite (ofBigEndian front), rest) :=
      head?_wide (by omega) (by omega) hfront rest
    rw [show 32 * 7 + (24 + (k + 1)) = 249 + k by omega, show 24 + (k + 1) = 25 + k by omega] at h
    exact ⟨k, hk, _, h⟩
  unfold floatBytes
  dsimp only
  split
  · exact hwide 0 (by omega) [0x7e, 0x00] rfl
  · split
    · exact hwide 0 (by omega) _ (length_bigEndian _ _)
    · split
      · exact hwide 0 (by omega) _ (length_bigEndian _ _)
      · split
        · exact hwide 0 (by omega) _ (length_bigEndian _ _)
        · exact hwide 1 (by omega) _ (length_bigEndian _ _)
        · exact hwide 2 (by omega) _ (length_bigEndian _ _)

theorem toList_loop (bs : ByteArray) (i : Nat) (front : List UInt8) :
    ByteArray.toList.loop bs i front = front.reverse ++ bs.data.toList.drop i := by
  induction i, front using ByteArray.toList.loop.induct bs with
  | case1 i front hi ih =>
    have hdrop : bs.data.toList.drop i = bs.get! i :: bs.data.toList.drop (i + 1) := by
      rw [List.drop_eq_getElem_cons (by simpa using hi)]
      simp [ByteArray.get!, hi]
    rw [ByteArray.toList.loop, if_pos hi, ih, hdrop, List.reverse_cons, List.append_assoc]
    rfl
  | case2 i front hi =>
    rw [ByteArray.toList.loop, if_neg hi, List.drop_of_length_le (by simpa using hi), List.append_nil]

theorem utf8?_toUTF8 (s : String) : utf8? s.toUTF8.toList = some s := by
  have hbytes : (⟨s.toUTF8.toList.toArray⟩ : ByteArray) = s.toUTF8 := by
    rw [ByteArray.toList, toList_loop]
    rfl
  rw [utf8?, hbytes, String.fromUTF8?, dif_pos (show s.toUTF8.IsValidUTF8 from s.isValidUTF8)]
  rfl

mutual

def Item.Gives : Item → Item → Prop
  | .uint n, j => n < 2 ^ 64 → j = .uint n
  | .negInt n, j => n < 2 ^ 64 → j = .negInt n
  | .bytes bs, j => j = .bytes bs
  | .text s, j => j = .text s
  | .array is, j => ∃ js, j = .array js ∧ GivesAll is js
  | .map es, j => ∃ fs, j = .map fs ∧ GivesEntries es fs
  | .tag _ i, j => ∃ m k, j = .tag m k ∧ i.Gives k
  | .simple n, j => n < 24 → j = .simple n
  | .float _, j => ∃ y, j = .float y

def GivesAll : List Item → List Item → Prop
  | [], js => js = []
  | i :: is, js => ∃ j ks, js = j :: ks ∧ i.Gives j ∧ GivesAll is ks

def GivesEntries : List (Item × Item) → List (Item × Item) → Prop
  | [], fs => fs = []
  | (k, v) :: es, fs => ∃ l w gs, fs = (l, w) :: gs ∧ k.Gives l ∧ v.Gives w ∧ GivesEntries es gs

end

theorem head_ne_nil (major n : Nat) : head major n ≠ [] := by
  unfold head
  dsimp only
  repeat' split
  all_goals exact List.cons_ne_nil _ _

theorem Item.encode_pos (i : Item) : 0 < i.encode.length := by
  rw [List.length_pos_iff]
  cases i with
  | float x =>
    obtain ⟨k, -, n, hhead⟩ := head?_floatBytes x []
    intro hnil
    rw [show floatBytes x = [] from hnil] at hhead
    cases hhead
  | _ => simp [Item.encode, head_ne_nil]

theorem length_le_encodeItems : (is : List Item) → is.length ≤ (encodeItems is).length
  | [] => Nat.le_refl _
  | i :: is => by
    have hrest := length_le_encodeItems is
    have hpos := i.encode_pos
    rw [encodeItems, List.length_append, List.length_cons]
    omega

theorem length_le_encodeEntries : (es : List (Item × Item)) → es.length ≤ (encodeEntries es).length
  | [] => Nat.le_refl _
  | (k, v) :: es => by
    have hrest := length_le_encodeEntries es
    have hpos := k.encode_pos
    rw [encodeEntries, List.length_append, List.length_append, List.length_cons]
    omega

section

variable {levels info : Nat} {size : Size} {bs rest : List UInt8}

theorem item?_bytes (h : head? bs = some (2, info, size, rest)) :
    item? levels bs = (string? 2 size rest).map fun x => (.bytes x.1, x.2) := by
  rw [item?.eq_def, h]
  cases levels <;> exact (Option.map_eq_bind ..).symm

theorem item?_text (h : head? bs = some (3, info, size, rest)) : item? levels bs
    = (string? 3 size rest).bind fun x => (utf8? x.1).map fun s => (.text s, x.2) := by
  rw [item?.eq_def, h]
  simp only [Option.map_eq_bind]
  cases levels <;> rfl

theorem item?_array (h : head? bs = some (4, info, size, rest)) : item? levels bs
    = match levels with
      | 0 => none
      | levels + 1 => (members (item? levels) size rest).map fun x => (.array x.1, x.2) := by
  rw [item?.eq_def, h]
  cases levels with
  | zero => rfl
  | succ levels => exact (Option.map_eq_bind ..).symm

theorem item?_map (h : head? bs = some (5, info, size, rest)) : item? levels bs
    = match levels with
      | 0 => none
      | levels + 1 => (members (pair? (item? levels)) size rest).map fun x => (.map x.1, x.2) := by
  rw [item?.eq_def, h]
  cases levels with
  | zero => rfl
  | succ levels => exact (Option.map_eq_bind ..).symm

theorem item?_tag {n : Nat} (h : head? bs = some (6, info, .definite n, rest)) : item? levels bs
    = match levels with
      | 0 => none
      | levels + 1 => (item? levels rest).map fun x => (.tag n x.1, x.2) := by
  rw [item?.eq_def, h]
  cases levels with
  | zero => rfl
  | succ levels => exact (Option.map_eq_bind ..).symm

theorem item?_simple (h : head? bs = some (7, info, size, rest)) :
    item? levels bs = simple? info size rest := by
  rw [item?.eq_def, h]
  cases levels <;> rfl

end

theorem string?_append (major : Nat) {content : List UInt8} (hlength : content.length < 2 ^ 64)
    (rest : List UInt8) : string? major (.definite (content.length % 2 ^ 64)) (content ++ rest)
      = some (content, rest) := by
  rw [Nat.mod_eq_of_lt hlength]
  exact take?_append content rest

theorem members_definite {α : Type} {one : List UInt8 → Option (α × List UInt8)} {n : Nat}
    (hn : n < 2 ^ 64) {bs : List UInt8} {x : List α × List UInt8}
    (h : members one (.definite (n % 2 ^ 64)) bs = some x) : many one n bs = some x := by
  rw [Nat.mod_eq_of_lt hn, members] at h
  split at h
  · cases h
  · exact h

theorem many_succ {α : Type} {one : List UInt8 → Option (α × List UInt8)} {n : Nat} {bs rest : List UInt8}
    {as : List α} (h : many one (n + 1) bs = some (as, rest)) : ∃ a bs' as', one bs = some (a, bs') ∧
      many one n bs' = some (as', rest) ∧ as = a :: as' := by
  obtain ⟨⟨a, bs'⟩, hone, h⟩ := Option.bind_eq_some_iff.mp h
  obtain ⟨⟨as', rest'⟩, hmany, h⟩ := Option.bind_eq_some_iff.mp h
  obtain ⟨rfl, rfl⟩ := Prod.mk.inj (Option.some.inj h)
  exact ⟨a, bs', as', hone, hmany, rfl⟩

theorem pair?_eq_some {one : List UInt8 → Option (Item × List UInt8)} {bs rest : List UInt8}
    {e : Item × Item} (h : pair? one bs = some (e, rest)) :
    ∃ bs', one bs = some (e.1, bs') ∧ one bs' = some (e.2, rest) := by
  obtain ⟨⟨k, bs'⟩, hkey, h⟩ := Option.bind_eq_some_iff.mp h
  obtain ⟨⟨v, rest'⟩, hvalue, h⟩ := Option.bind_eq_some_iff.mp h
  obtain ⟨rfl, rfl⟩ := Prod.mk.inj (Option.some.inj h)
  exact ⟨bs', hkey, hvalue⟩

theorem simple?_definite {info n : Nat} {bs rest : List UInt8} {i : Item}
    (h : simple? info (.definite n) bs = some (i, rest)) :
    (info < 24 → i = .simple n) ∧ rest = bs := by
  unfold simple? at h
  split at h
  case h_1 =>
    rename_i heq
    obtain rfl := Size.definite.inj heq
    split at h
    · cases h
    · obtain ⟨rfl, rfl⟩ := Prod.mk.inj (Option.some.inj h)
      exact ⟨fun _ => rfl, rfl⟩
  case h_5 =>
    rename_i heq
    obtain rfl := Size.definite.inj heq
    obtain ⟨rfl, rfl⟩ := Prod.mk.inj (Option.some.inj h)
    exact ⟨fun _ => rfl, rfl⟩
  case h_6 => cases h
  all_goals
    obtain ⟨rfl, rfl⟩ := Prod.mk.inj (Option.some.inj h)
    exact ⟨fun hlt => by omega, rfl⟩

mutual

theorem Item.gives : (i : Item) → (levels : Nat) → {j : Item} → {rest rest' : List UInt8} →
    i.encode.length < 2 ^ 64 → item? levels (i.encode ++ rest) = some (j, rest') →
      i.Gives j ∧ rest' = rest
  | .uint n, levels, j, rest, rest', _, h => by
    obtain ⟨info, hhead, -⟩ := head?_head 0 (by omega) n rest
    rw [Item.encode, item?.eq_def, hhead] at h
    obtain ⟨rfl, rfl⟩ := Prod.mk.inj (Option.some.inj h)
    exact ⟨fun hn => by rw [Nat.mod_eq_of_lt hn], rfl⟩
  | .negInt n, levels, j, rest, rest', _, h => by
    obtain ⟨info, hhead, -⟩ := head?_head 1 (by omega) n rest
    rw [Item.encode, item?.eq_def, hhead] at h
    obtain ⟨rfl, rfl⟩ := Prod.mk.inj (Option.some.inj h)
    exact ⟨fun hn => by rw [Nat.mod_eq_of_lt hn], rfl⟩
  | .bytes bs, levels, j, rest, rest', hlength, h => by
    rw [Item.encode, List.length_append] at hlength
    obtain ⟨info, hhead, -⟩ := head?_head 2 (by omega) bs.length (bs ++ rest)
    rw [Item.encode, List.append_assoc, item?_bytes hhead, string?_append 2 (by omega)] at h
    obtain ⟨rfl, rfl⟩ := Prod.mk.inj (Option.some.inj h)
    exact ⟨rfl, rfl⟩
  | .text s, levels, j, rest, rest', hlength, h => by
    rw [Item.encode] at hlength h
    rw [List.length_append] at hlength
    obtain ⟨info, hhead, -⟩ := head?_head 3 (by omega) s.toUTF8.toList.length
      (s.toUTF8.toList ++ rest)
    rw [List.append_assoc, item?_text hhead, string?_append 3 (by omega), Option.bind_some,
      utf8?_toUTF8] at h
    obtain ⟨rfl, rfl⟩ := Prod.mk.inj (Option.some.inj h)
    exact ⟨rfl, rfl⟩
  | .array is, levels, j, rest, rest', hlength, h => by
    have hcount := length_le_encodeItems is
    rw [Item.encode, List.length_append] at hlength
    obtain ⟨info, hhead, -⟩ := head?_head 4 (by omega) is.length (encodeItems is ++ rest)
    rw [Item.encode, List.append_assoc, item?_array hhead] at h
    cases levels with
    | zero => cases h
    | succ levels =>
      obtain ⟨⟨js, rest''⟩, hmany, heq⟩ := Option.map_eq_some_iff.mp h
      obtain ⟨rfl, rfl⟩ := Prod.mk.inj heq
      obtain ⟨hjs, hrest⟩ := items_give is levels (by omega) (members_definite (by omega) hmany)
      exact ⟨⟨js, rfl, hjs⟩, hrest⟩
  | .map es, levels, j, rest, rest', hlength, h => by
    have hcount := length_le_encodeEntries es
    rw [Item.encode, List.length_append] at hlength
    obtain ⟨info, hhead, -⟩ := head?_head 5 (by omega) es.length (encodeEntries es ++ rest)
    rw [Item.encode, List.append_assoc, item?_map hhead] at h
    cases levels with
    | zero => cases h
    | succ levels =>
      obtain ⟨⟨fs, rest''⟩, hmany, heq⟩ := Option.map_eq_some_iff.mp h
      obtain ⟨rfl, rfl⟩ := Prod.mk.inj heq
      obtain ⟨hfs, hrest⟩ := entries_give es levels (by omega) (members_definite (by omega) hmany)
      exact ⟨⟨fs, rfl, hfs⟩, hrest⟩
  | .tag n i, levels, j, rest, rest', hlength, h => by
    rw [Item.encode, List.length_append] at hlength
    obtain ⟨info, hhead, -⟩ := head?_head 6 (by omega) n (i.encode ++ rest)
    rw [Item.encode, List.append_assoc, item?_tag hhead] at h
    cases levels with
    | zero => cases h
    | succ levels =>
      obtain ⟨⟨k, rest''⟩, hitem, heq⟩ := Option.map_eq_some_iff.mp h
      obtain ⟨rfl, rfl⟩ := Prod.mk.inj heq
      obtain ⟨hk, hrest⟩ := i.gives levels (by omega) hitem
      exact ⟨⟨_, k, rfl, hk⟩, hrest⟩
  | .simple n, levels, j, rest, rest', _, h => by
    obtain ⟨info, hhead, hinfo⟩ := head?_head 7 (by omega) n rest
    rw [Item.encode, item?_simple hhead] at h
    obtain ⟨hsimple, hrest⟩ := simple?_definite h
    refine ⟨fun hn => ?_, hrest⟩
    rw [hsimple (by rw [hinfo hn]; exact hn), Nat.mod_eq_of_lt (by omega)]
  | .float x, levels, j, rest, rest', _, h => by
    obtain ⟨k, hk, n, hhead⟩ := head?_floatBytes x rest
    rw [Item.encode, item?_simple hhead] at h
    obtain rfl | rfl | rfl : k = 0 ∨ k = 1 ∨ k = 2 := by omega
    all_goals
      obtain ⟨rfl, rfl⟩ := Prod.mk.inj (Option.some.inj h)
      exact ⟨⟨_, rfl⟩, rfl⟩

theorem items_give : (is : List Item) → (levels : Nat) → {js : List Item} → {rest rest' : List UInt8} →
    (encodeItems is).length < 2 ^ 64 →
      many (item? levels) is.length (encodeItems is ++ rest) = some (js, rest') →
        GivesAll is js ∧ rest' = rest
  | [], _, _, _, _, _, h => by
    obtain ⟨rfl, rfl⟩ := Prod.mk.inj (Option.some.inj h)
    exact ⟨rfl, rfl⟩
  | i :: is, levels, js, rest, rest', hlength, h => by
    rw [encodeItems, List.length_append] at hlength
    rw [encodeItems, List.append_assoc, List.length_cons] at h
    obtain ⟨j, rest₁, ks, hitem, hmany, rfl⟩ := many_succ h
    obtain ⟨hj, rfl⟩ := i.gives levels (by omega) hitem
    obtain ⟨hks, rfl⟩ := items_give is levels (by omega) hmany
    exact ⟨⟨j, ks, rfl, hj, hks⟩, rfl⟩

theorem entries_give : (es : List (Item × Item)) → (levels : Nat) → {fs : List (Item × Item)} →
    {rest rest' : List UInt8} → (encodeEntries es).length < 2 ^ 64 →
      many (pair? (item? levels)) es.length (encodeEntries es ++ rest) = some (fs, rest') →
        GivesEntries es fs ∧ rest' = rest
  | [], _, _, _, _, _, h => by
    obtain ⟨rfl, rfl⟩ := Prod.mk.inj (Option.some.inj h)
    exact ⟨rfl, rfl⟩
  | (k, v) :: es, levels, fs, rest, rest', hlength, h => by
    rw [encodeEntries, List.length_append, List.length_append] at hlength
    rw [encodeEntries, List.append_assoc, List.append_assoc, List.length_cons] at h
    obtain ⟨e, rest₁, gs, hpair, hmany, rfl⟩ := many_succ h
    obtain ⟨rest₂, hkey, hvalue⟩ := pair?_eq_some hpair
    obtain ⟨hl, rfl⟩ := k.gives levels (by omega) hkey
    obtain ⟨hw, rfl⟩ := v.gives levels (by omega) hvalue
    obtain ⟨hgs, rfl⟩ := entries_give es levels (by omega) hmany
    exact ⟨⟨_, _, gs, rfl, hl, hw, hgs⟩, rfl⟩

end

theorem decode?_gives {i j : Item} (hlength : i.encode.length < 2 ^ 64)
    (h : decode? i.encode = some j) : i.Gives j := by
  rw [decode?] at h
  split at h
  · rename_i k hitem
    obtain rfl := Option.some.inj h
    rw [← List.append_nil i.encode] at hitem
    exact (i.gives maxLevels hlength hitem).1
  · cases h

end Cbor

namespace Bundle

open Cbor (Item GivesAll GivesEntries)

def Keyed (es : List (Item × Item)) : Prop := ∀ e ∈ es, ∃ k < 2 ^ 64, e.1 = .uint k

theorem find?_gives {key : Nat} : {es fs : List (Item × Item)} → Keyed es → GivesEntries es fs →
    match es.find? (hasKey key) with
    | none => fs.find? (hasKey key) = none
    | some e => ∃ f, fs.find? (hasKey key) = some f ∧ e.2.Gives f.2
  | [], _, _, h => by
    obtain rfl := h
    rfl
  | (k, v) :: es, _, hkeys, ⟨l, w, gs, hfs, hl, hw, hgs⟩ => by
    subst hfs
    obtain ⟨n, hn, hk⟩ := hkeys _ List.mem_cons_self
    dsimp only at hk
    subst hk
    obtain rfl := hl hn
    have ih := @find?_gives key es _ (fun e he => hkeys e (List.mem_cons_of_mem _ he)) hgs
    rw [List.find?_cons, List.find?_cons]
    have hsame : hasKey key (.uint n, w) = hasKey key (.uint n, v) := rfl
    rw [hsame]
    cases hasKey key (.uint n, v) with
    | true => exact ⟨_, rfl, hw⟩
    | false => exact ih

theorem field_gives {α : Type} {es fs : List (Item × Item)} (hkeys : Keyed es) (h : GivesEntries es fs)
    {key : Nat} {default a : α} {read : Item → Option α} (ha : field fs key default read = some a) :
    match es.find? (hasKey key) with
    | none => a = default
    | some e => ∃ w, e.2.Gives w ∧ read w = some a := by
  have hfind := @find?_gives key es fs hkeys h
  rw [field] at ha
  split at hfind
  · rw [hfind] at ha
    exact (Option.some.inj ha).symm
  · obtain ⟨f, hf, hgives⟩ := hfind
    rw [hf] at ha
    exact ⟨f.2, hgives, ha⟩

theorem fields?_map {fs gs : List (Item × Item)} (h : fields? (.map fs) = some gs) : fs = gs := by
  have hfields : fields? (.map fs) = if fs.all isKey then some fs else none := rfl
  rw [hfields] at h
  split at h
  · exact Option.some.inj h
  · cases h

theorem Keyed.append {es fs : List (Item × Item)} (h : Keyed es) (k : Keyed fs) : Keyed (es ++ fs) :=
  fun e he => (List.mem_append.mp he).elim (h e) (k e)

theorem Keyed.cons {key : Nat} (hkey : key < 2 ^ 64) (v : Item) {es : List (Item × Item)} (h : Keyed es) :
    Keyed (entry key v :: es) := by
  intro e he
  rcases List.mem_cons.mp he with rfl | he
  · exact ⟨key, hkey, rfl⟩
  · exact h e he

theorem Keyed.nil : Keyed [] := by simp [Keyed]

theorem Keyed.textEntry {key : Nat} (hkey : key < 2 ^ 64) (s : String) : Keyed (textEntry key s) := by
  unfold Bundle.textEntry
  split
  · exact .nil
  · exact .cons hkey _ .nil

theorem Keyed.listEntry {key : Nat} (hkey : key < 2 ^ 64) (is : List Item) : Keyed (listEntry key is) := by
  unfold Bundle.listEntry
  split
  · exact .nil
  · exact .cons hkey _ .nil

theorem hasKey_entry (key k : Nat) (v : Item) : hasKey key (entry k v) = (k == key) := rfl

theorem find?_textEntry {key k : Nat} (h : k ≠ key) (s : String) :
    (textEntry k s).find? (hasKey key) = none := by
  unfold textEntry
  split
  · rfl
  · simp [hasKey_entry, h]

theorem find?_listEntry {key k : Nat} (h : k ≠ key) (is : List Item) :
    (listEntry k is).find? (hasKey key) = none := by
  unfold listEntry
  split
  · rfl
  · simp [hasKey_entry, h]

theorem textItems_give : {ss : List String} → {js : List Item} → GivesAll (textItems ss) js →
    js.mapM readText = some ss
  | [], _, h => by
    obtain rfl := h
    rfl
  | s :: ss, _, ⟨j, ks, hjs, hj, hks⟩ => by
    subst hjs
    obtain rfl := hj
    rw [List.mapM_cons, textItems_give hks]
    rfl

theorem texts_read {ss ts : List String} {w : Item} (hw : (listOrNull (textItems ss)).Gives w)
    (h : readList readText w = some ts) : ts = ss := by
  unfold listOrNull at hw
  split at hw
  · rename_i hempty
    obtain rfl : ss = [] := by simpa [textItems] using hempty
    obtain rfl := hw (by decide)
    exact (Option.some.inj h).symm
  · obtain ⟨js, rfl, hjs⟩ := hw
    exact Option.some.inj (h.symm.trans (textItems_give hjs))

theorem Function.read_code {f g : Function} {j : Item} (hj : f.item.Gives j)
    (h : Function.read j = some g) : g.code = f.code := by
  obtain ⟨fs, rfl, hfs⟩ := hj
  have hkeys : Keyed ([entry 1 (.text f.name), entry 2 (.ofInt f.arity), entry 3 (.ofInt f.localCount),
      entry 4 (.ofInt f.freeCount), entry 5 (.bytes f.code), entry 6 (.array (f.lines.map Item.ofInt)),
      entry 7 (listOrNull (Constant.items f.constants))] ++ textEntry 8 f.file) := by
    refine .append ?_ (.textEntry (by decide) _)
    repeat refine .cons (by decide) _ ?_
    exact .nil
  obtain ⟨gs, hgs, h⟩ := Option.bind_eq_some_iff.mp h
  obtain rfl := fields?_map hgs
  obtain ⟨_, -, h⟩ := Option.bind_eq_some_iff.mp h
  obtain ⟨_, -, h⟩ := Option.bind_eq_some_iff.mp h
  obtain ⟨_, -, h⟩ := Option.bind_eq_some_iff.mp h
  obtain ⟨_, -, h⟩ := Option.bind_eq_some_iff.mp h
  obtain ⟨code, hcode, h⟩ := Option.bind_eq_some_iff.mp h
  obtain ⟨_, -, h⟩ := Option.bind_eq_some_iff.mp h
  obtain ⟨_, -, h⟩ := Option.bind_eq_some_iff.mp h
  obtain ⟨_, -, h⟩ := Option.bind_eq_some_iff.mp h
  obtain rfl := Option.some.inj h
  obtain ⟨w, rfl, hw⟩ := field_gives hkeys hfs hcode
  exact (Option.some.inj hw).symm

theorem functions_give : {fs gs : List Function} → {js : List Item} →
    GivesAll (fs.map Function.item) js → js.mapM Function.read = some gs →
      List.Forall₂ (fun f g => g.code = f.code) fs gs
  | [], _, _, hjs, h => by
    obtain rfl := hjs
    obtain rfl := Option.some.inj h
    exact .nil
  | f :: fs, _, _, ⟨j, ks, hjs, hj, hks⟩, h => by
    subst hjs
    rw [List.mapM_cons] at h
    obtain ⟨g, hg, h⟩ := Option.bind_eq_some_iff.mp h
    obtain ⟨gs, hgs, h⟩ := Option.bind_eq_some_iff.mp h
    obtain rfl := Option.some.inj h
    exact .cons (Function.read_code hj hg) (functions_give hks hgs)

/-- What is read of a bundle has the globals, the code and the script that were written. -/
structure Retained (b c : Bundle) : Prop where
  globals : c.globals = b.globals
  functions : List.Forall₂ (fun f g => g.code = f.code) b.functions c.functions
  script : c.script = b.script

theorem read_retained {b c : Bundle} {j : Item} (hscript : 0 ≤ b.script ∧ b.script < 2 ^ 64)
    (hj : b.item.Gives j) (h : read j = some c) : b.Retained c := by
  obtain ⟨fs, rfl, hfs⟩ := hj
  have hkeys : Keyed ([entry 1 (.text b.id)] ++ textEntry 2 b.sourceFile
      ++ [entry 3 (listOrNull (textItems b.globals)), entry 4 (.array (b.functions.map Function.item)),
        entry 5 (.ofInt b.script)] ++ listEntry 6 (textItems b.modules)) := by
    refine .append (.append (.append ?_ (.textEntry (by decide) _)) ?_) (.listEntry (by decide) _)
    · exact .cons (by decide) _ .nil
    · exact .cons (by decide) _ (.cons (by decide) _ (.cons (by decide) _ .nil))
  have hfind : ∀ key, 3 ≤ key → key ≤ 5 →
      ([entry 1 (.text b.id)] ++ textEntry 2 b.sourceFile
        ++ [entry 3 (listOrNull (textItems b.globals)), entry 4 (.array (b.functions.map Function.item)),
          entry 5 (.ofInt b.script)] ++ listEntry 6 (textItems b.modules)).find? (hasKey key)
      = [entry 3 (listOrNull (textItems b.globals)), entry 4 (.array (b.functions.map Function.item)),
          entry 5 (.ofInt b.script)].find? (hasKey key) := by
    intro key hlow hhigh
    rw [List.find?_append, List.find?_append, List.find?_append, find?_textEntry (by omega),
      find?_listEntry (by omega)]
    simp [List.find?_cons, hasKey_entry, show (1 == key) = false by simp; omega]
  obtain ⟨gs, hgs, h⟩ := Option.bind_eq_some_iff.mp h
  obtain rfl := fields?_map hgs
  obtain ⟨_, -, h⟩ := Option.bind_eq_some_iff.mp h
  obtain ⟨_, -, h⟩ := Option.bind_eq_some_iff.mp h
  obtain ⟨globals, hglobals, h⟩ := Option.bind_eq_some_iff.mp h
  obtain ⟨functions, hfunctions, h⟩ := Option.bind_eq_some_iff.mp h
  obtain ⟨script, hscript', h⟩ := Option.bind_eq_some_iff.mp h
  obtain ⟨_, -, h⟩ := Option.bind_eq_some_iff.mp h
  obtain rfl := Option.some.inj h
  refine ⟨?_, ?_, ?_⟩
  · have hread := field_gives hkeys hfs hglobals
    rw [hfind 3 (by decide) (by decide)] at hread
    obtain ⟨w, hw, hread⟩ := hread
    exact texts_read hw hread
  · have hread := field_gives hkeys hfs hfunctions
    rw [hfind 4 (by decide) (by decide)] at hread
    obtain ⟨w, ⟨js, rfl, hjs⟩, hread⟩ := hread
    exact functions_give hjs hread
  · have hread := field_gives hkeys hfs hscript'
    rw [hfind 5 (by decide) (by decide)] at hread
    obtain ⟨w, hw, hread⟩ := hread
    have hint : Item.ofInt b.script = .uint b.script.toNat := by
      rw [Item.ofInt, if_neg (by omega)]
    have hw : (Item.ofInt b.script).Gives w := hw
    rw [hint] at hw
    obtain rfl := hw (by omega)
    have hvalue : readInt (.uint b.script.toNat)
        = if b.script.toNat < 9223372036854775808 then some (b.script.toNat : Int) else none := rfl
    rw [hvalue] at hread
    split at hread
    · have hsame := Option.some.inj hread
      dsimp only
      omega
    · cases hread

theorem decode_encode {b c : Bundle} (hscript : 0 ≤ b.script ∧ b.script < 2 ^ 64)
    (hlength : b.encode.length < 2 ^ 64) (h : decode b.encode = .ok c) : b.Retained c := by
  have hmagic : b.encode.take magic.length = magic := List.take_left
  have hrest : b.encode.drop magic.length = b.item.encode := List.drop_left
  rw [encode, List.length_append] at hlength
  rw [decode, hmagic, hrest, if_pos (beq_self_eq_true _)] at h
  split at h
  · cases h
  · rename_i d hread
    obtain ⟨j, hj, hread⟩ := Option.bind_eq_some_iff.mp hread
    have hretained := read_retained hscript (Cbor.decode?_gives (by omega) hj) hread
    split at h
    · exact Except.ok.inj h ▸ hretained
    · cases h

end Bundle

theorem toUTF8_toList_injective {s t : String} (h : s.toUTF8.toList = t.toUTF8.toList) : s = t := by
  have hread := Cbor.utf8?_toUTF8 s
  rw [h, Cbor.utf8?_toUTF8 t] at hread
  exact (Option.some.inj hread).symm

theorem toUTF8_toList (s : String) : s.toUTF8.toList = s.toList.flatMap String.utf8EncodeChar := by
  rw [ByteArray.toList, Cbor.toList_loop, String.toUTF8_eq_toByteArray, ← String.utf8Encode_toList,
    List.utf8Encode]
  simp

theorem length_le_utf8ByteSize (s : String) : s.length ≤ s.utf8ByteSize := by
  have hchars : ∀ cs : List Char, cs.length ≤ (cs.flatMap String.utf8EncodeChar).length := by
    intro cs
    induction cs with
    | nil => exact Nat.le_refl 0
    | cons c cs ih =>
      have hchar : 0 < (String.utf8EncodeChar c).length := by
        rw [String.length_utf8EncodeChar]
        exact Char.utf8Size_pos c
      simp only [List.flatMap_cons, List.length_append, List.length_cons]
      omega
  rw [← s.size_toByteArray, ← String.utf8Encode_toList, List.utf8Encode, List.size_toByteArray,
    ← String.length_toList]
  exact hchars s.toList

theorem Hex.length_encode (bs : List UInt8) : (Hex.encode bs).length = 2 * bs.length := by
  simp [Hex.encode, List.length_flatMap, List.map_const', Nat.mul_comm]

theorem two_le_of_mem_utf8EncodeChar {c : Char} (hc : 1 < c.toNat) {b : UInt8}
    (hb : b ∈ String.utf8EncodeChar c) : 2 ≤ b.toNat := by
  have hmarked : ∀ n w k : Nat, w + k ≤ 256 → 0 < w → 128 ≤ k →
      2 ≤ (UInt8.ofNat (n % w + k)).toNat := by
    intro n w k hbyte hw hk
    have hlt : n % w < w := Nat.mod_lt n hw
    rw [UInt8.toNat_ofNat', Nat.mod_eq_of_lt (by omega)]
    omega
  have hsmall : ∀ n : Nat, 1 < n → n ≤ 127 → 2 ≤ (UInt8.ofNat n).toNat := by
    intro n hn hle
    rw [UInt8.toNat_ofNat', Nat.mod_eq_of_lt (by omega)]
    exact hn
  rw [String.utf8EncodeChar] at hb
  split at hb
  · rename_i hle
    obtain rfl := List.mem_singleton.mp hb
    exact hsmall _ hc hle
  -- every byte of a longer character carries a mark of at least 128
  · split at hb
    · simp only [List.mem_cons, List.not_mem_nil, or_false] at hb
      rcases hb with rfl | rfl <;> exact hmarked _ _ _ (by decide) (by decide) (by decide)
    · split at hb <;> simp only [List.mem_cons, List.not_mem_nil, or_false] at hb
      · rcases hb with rfl | rfl | rfl <;> exact hmarked _ _ _ (by decide) (by decide) (by decide)
      · rcases hb with rfl | rfl | rfl | rfl <;>
          exact hmarked _ _ _ (by decide) (by decide) (by decide)

theorem append_cons_inj {xs ys xs' ys' : List UInt8} {a b : UInt8} (hxs : ∀ x ∈ xs, 2 ≤ x.toNat)
    (hys : ∀ y ∈ ys, 2 ≤ y.toNat) (ha : a.toNat < 2) (hb : b.toNat < 2)
    (h : xs ++ a :: xs' = ys ++ b :: ys') : xs = ys ∧ a = b ∧ xs' = ys' := by
  induction xs generalizing ys with
  | nil =>
    cases ys with
    | nil => simpa using h
    | cons y ys =>
      obtain ⟨rfl, -⟩ := List.cons.inj h
      have := hys a (by simp)
      omega
  | cons x xs ih =>
    cases ys with
    | nil =>
      obtain ⟨rfl, -⟩ := List.cons.inj h
      have := hxs x (by simp)
      omega
    | cons y ys =>
      obtain ⟨rfl, htail⟩ := List.cons.inj h
      obtain ⟨rfl, hrest⟩ := ih (fun z hz => hxs z (by simp [hz])) (fun z hz => hys z (by simp [hz]))
        htail
      exact ⟨rfl, hrest⟩

namespace Cache

def Separated (name : String) : Prop := ∀ c ∈ name.toList, 1 < c.toNat

instance (name : String) : Decidable (Separated name) :=
  inferInstanceAs (Decidable (∀ c ∈ name.toList, 1 < c.toNat))

theorem Separated.bytes {name : String} (h : Separated name) :
    ∀ b ∈ name.toUTF8.toList, 2 ≤ b.toNat := by
  intro b hb
  rw [toUTF8_toList] at hb
  obtain ⟨c, hc, hb⟩ := List.mem_flatMap.mp hb
  exact two_le_of_mem_utf8EncodeChar (h c hc) hb

def entryBytes (source : String) (modules : List String) : List UInt8 :=
  modules.flatMap (fun m => 0 :: m.toUTF8.toList) ++ 1 :: source.toUTF8.toList

theorem entryBytes_cons (source m : String) (ms : List String) :
    entryBytes source (m :: ms) = 0 :: (m.toUTF8.toList ++ entryBytes source ms) := by
  simp [entryBytes]

theorem entryBytes_eq_cons (source : String) (ms : List String) :
    ∃ b rest, entryBytes source ms = b :: rest ∧ b.toNat < 2 := by
  cases ms with
  | nil => exact ⟨1, _, rfl, by decide⟩
  | cons m ms => exact ⟨0, _, entryBytes_cons source m ms, by decide⟩

theorem entryBytes_injective {s t : String} {ms ns : List String} (hms : ∀ m ∈ ms, Separated m)
    (hns : ∀ n ∈ ns, Separated n) (h : entryBytes s ms = entryBytes t ns) : s = t ∧ ms = ns := by
  induction ms generalizing ns with
  | nil =>
    cases ns with
    | nil =>
      have htail : s.toUTF8.toList = t.toUTF8.toList := (List.cons.inj h).2
      exact ⟨toUTF8_toList_injective htail, rfl⟩
    | cons n ns =>
      rw [entryBytes_cons] at h
      exact absurd (List.cons.inj h).1 (by decide)
  | cons m ms ih =>
    cases ns with
    | nil =>
      rw [entryBytes_cons] at h
      exact absurd (List.cons.inj h).1 (by decide)
    | cons n ns =>
      rw [entryBytes_cons, entryBytes_cons] at h
      obtain ⟨a, xs, hxs, ha⟩ := entryBytes_eq_cons s ms
      obtain ⟨b, ys, hys, hb⟩ := entryBytes_eq_cons t ns
      have hnames : m.toUTF8.toList ++ a :: xs = n.toUTF8.toList ++ b :: ys := by
        rw [← hxs, ← hys]
        exact (List.cons.inj h).2
      obtain ⟨hname, rfl, rfl⟩ :=
        append_cons_inj (hms m (by simp)).bytes (hns n (by simp)).bytes ha hb hnames
      obtain ⟨hsource, hrest⟩ := ih (fun x hx => hms x (by simp [hx])) (fun x hx => hns x (by simp [hx]))
        (hxs.trans hys.symm)
      exact ⟨hsource, by rw [toUTF8_toList_injective hname, hrest]⟩

theorem keyBytes_injective {s t : String} {ms ns : List String} (hms : ∀ m ∈ ms, Separated m)
    (hns : ∀ n ∈ ns, Separated n) (h : keyBytes s ms = keyBytes t ns) : s = t ∧ ms = ns := by
  rw [keyBytes, keyBytes, List.append_assoc, List.append_assoc] at h
  exact entryBytes_injective hms hns (List.append_cancel_left h)

theorem keyBytes_shared (s name rest : String) (ms : List String) :
    keyBytes s (ms ++ [name ++ "\x01" ++ rest]) = keyBytes (rest ++ "\x01" ++ s) (ms ++ [name]) := by
  have hone : String.utf8EncodeChar '\x01' = [1] := by decide
  simp [keyBytes, toUTF8_toList, hone, -String.toUTF8_eq_toByteArray]

theorem keyBytes_split (s a b : String) (ms ns : List String) :
    keyBytes s (ms ++ (a ++ "\x00" ++ b) :: ns) = keyBytes s (ms ++ a :: b :: ns) := by
  have hzero : String.utf8EncodeChar '\x00' = [0] := by decide
  simp [keyBytes, toUTF8_toList, hzero, -String.toUTF8_eq_toByteArray]

theorem logged_key (source : String) (modules : List String) :
    logged (key source modules) = .ok () := by
  have hlength : (key source modules).length = 64 := Hex.length_encode _
  have hsize := length_le_utf8ByteSize (key source modules)
  rw [logged, if_neg (by omega)]

end Cache

end Scripting
