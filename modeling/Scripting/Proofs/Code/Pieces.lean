import Scripting.Proofs.Code.Flow

/-!
# Pieces of code

Code that is put together stays in one piece: its instructions stand in the whole code as they are, but
for exits, which are settled by jumps that leave the piece, and jumps from elsewhere go to its start or
not into it at all. Places are integers here, since a jump back may leave a piece to the left.
-/

namespace Scripting

namespace Asm

def hop? : Asm → Option Int
  | skip n | skipIfFalse n => some (n + 1)
  | back n => some (-n)
  | op .. | closure .. | exit _ => none

def IsExit : Asm → Prop
  | exit _ => True
  | _ => False

theorem IsExit.hop? {a : Asm} (h : a.IsExit) : a.hop? = none := by
  cases a <;> first | rfl | exact h.elim

end Asm

/-- Whether a place is not inside of the code at some places, where its first one counts as outside. -/
def Around (o n : Nat) (t : Int) : Prop := t ≤ o ∨ o + n ≤ t

def Among (n : Nat) (t : Int) : Prop := 0 ≤ t ∧ t ≤ n

namespace Assembly

/-- Whether the jumps of code that is placed at `o` go to certain places only. -/
def Jumps (P : Int → Prop) (o : Nat) (code : Assembly) : Prop :=
  ∀ (i : Nat) l h, code[i]? = some l → l.asm.hop? = some h → P (o + i + h)

/-- Whether code is left by exits and at its end only. -/
abbrev Closed (c : Assembly) : Prop := c.Jumps (Among c.length) 0

/-- Whether code stands as one piece at a place of other code. -/
structure Holds (code part : Assembly) (o : Nat) : Prop where
  room : o + part.length ≤ code.length
  /-- Exits may be settled, by jumps that leave the piece. -/
  kept : ∀ (j : Nat) l, part[j]? = some l → ∃ l', code[o + j]? = some l' ∧ (l' = l ∨
    l.asm.IsExit ∧ ∃ h, l'.asm.hop? = some h ∧ Around o part.length (o + j + h))
  /-- What stands elsewhere does not jump into the piece. -/
  entry : ∀ (i : Nat) l h, code[i]? = some l → l.asm.hop? = some h → i < o ∨ o + part.length ≤ i →
    Around o part.length (i + h)

def Lacks (k : Exit) (c : Assembly) : Prop := ∀ l ∈ c, l.asm ≠ .exit k

variable {c d e : Assembly} {o p : Nat} {P : Int → Prop}

namespace Lacks

variable {k i : Exit}

theorem nil : Lacks k [] := nofun

theorem single {line : Int} {a : Asm} (h : a ≠ .exit k) : Lacks k [⟨line, a⟩] :=
  List.forall_mem_singleton.mpr h

theorem append (hc : c.Lacks k) (hd : d.Lacks k) : Lacks k (c ++ d) := List.forall_mem_append.mpr ⟨hc, hd⟩

theorem settle {jump : Nat → Nat → Asm} (hc : c.Lacks k) (hjump : ∀ i j, jump i j ≠ .exit k) :
    Lacks k (c.settle i jump) := by
  intro l hl
  obtain ⟨j, hj, rfl⟩ := List.mem_mapIdx.mp hl
  have hold := hc _ (List.getElem_mem hj)
  split
  · split
    · exact hjump _ _
    · exact hold
  · exact hold

theorem settled {jump : Nat → Nat → Asm} (hjump : ∀ i j, jump i j ≠ .exit k) :
    Lacks k (c.settle k jump) := by
  intro l hl
  obtain ⟨j, hj, rfl⟩ := List.mem_mapIdx.mp hl
  split
  · rename_i i hi
    split
    · exact hjump _ _
    · rename_i hne
      rw [hi]
      exact fun he => hne (Asm.exit.inj he)
  · rename_i hnot
    exact hnot k

end Lacks

namespace Jumps

theorem nil : Jumps P o [] := nofun

theorem append (hc : c.Jumps P o) (hd : d.Jumps P (o + c.length)) : Jumps P o (c ++ d) := by
  intro i l h hl hh
  rcases Nat.lt_or_ge i c.length with hi | hi
  · rw [List.getElem?_append_left hi] at hl
    exact hc i l h hl hh
  · rw [List.getElem?_append_right hi] at hl
    have hP := hd _ l h hl hh
    rwa [show ((o + c.length : Nat) : Int) + (i - c.length : Nat) + h = o + i + h by omega] at hP

theorem single {line : Int} {a : Asm} (ha : ∀ h, a.hop? = some h → P (o + h)) :
    Jumps P o [⟨line, a⟩] := by
  intro i l h hl hh
  obtain ⟨rfl, rfl⟩ : i = 0 ∧ l = ⟨line, a⟩ := by
    cases i with
    | zero => simpa using hl.symm
    | succ i => simp at hl
  simpa using ha h hh

theorem straight {line : Int} {a : Asm} (ha : a.hop? = none) : Jumps P o [⟨line, a⟩] :=
  single fun h hh => by simp [ha] at hh

theorem skip {line : Int} {n : Nat} (hP : P (o + (n + 1))) : Jumps P o [⟨line, .skip n⟩] :=
  single fun h hh => by obtain rfl := Option.some.inj hh; exact hP

theorem skipIfFalse {line : Int} {n : Nat} (hP : P (o + (n + 1))) :
    Jumps P o [⟨line, .skipIfFalse n⟩] :=
  single fun h hh => by obtain rfl := Option.some.inj hh; exact hP

theorem back {line : Int} {n : Nat} (hP : P (o + -n)) : Jumps P o [⟨line, .back n⟩] :=
  single fun h hh => by obtain rfl := Option.some.inj hh; exact hP

theorem settle {k : Exit} {jump : Nat → Nat → Asm} (h : c.Jumps P o)
    (hjump : ∀ j < c.length, ∀ h, (jump j (c.length - j - 1)).hop? = some h → P (o + j + h)) :
    Jumps P o (c.settle k jump) := by
  intro i l h' hl hh
  rw [Assembly.settle, List.getElem?_mapIdx] at hl
  obtain ⟨m, hm, rfl⟩ := Option.map_eq_some_iff.mp hl
  split at hh
  · split at hh
    · exact hjump i (List.getElem?_eq_some_iff.mp hm).1 h' hh
    · exact h i m h' hm hh
  · exact h i m h' hm hh

end Jumps

theorem Closed.jumps (hc : c.Closed) (hP : ∀ t : Int, o ≤ t → t ≤ o + c.length → P t) : c.Jumps P o := by
  intro i l h hl hh
  obtain ⟨hlow, hhigh⟩ := hc i l h hl hh
  exact hP _ (by omega) (by omega)

theorem Closed.nil : Closed [] := nofun

theorem Closed.straight {line : Int} {a : Asm} (ha : a.hop? = none) : Closed [⟨line, a⟩] :=
  Jumps.straight ha

theorem Closed.append (hc : c.Closed) (hd : d.Closed) : Closed (c ++ d) := by
  refine Jumps.append (hc.jumps fun t h0 h1 => ?_) (hd.jumps fun t h0 h1 => ?_) <;>
    exact ⟨by omega, by simp; omega⟩

namespace Holds

theorem refl (c : Assembly) : c.Holds c 0 where
  room := by simp
  kept j l hl := ⟨l, by simpa using hl, .inl rfl⟩
  entry i l h hl _ hout := by
    have := (List.getElem?_eq_some_iff.mp hl).1
    omega

theorem trans (h : c.Holds d o) (k : d.Holds e p) : c.Holds e (o + p) := by
  have hroom := k.room
  refine ⟨by have := h.room; omega, fun j l hl => ?_, fun i l x hl hx hout => ?_⟩
  · have hj : j < e.length := (List.getElem?_eq_some_iff.mp hl).1
    obtain ⟨l', hl', hsame⟩ := k.kept j l hl
    obtain ⟨l'', hl'', hsame'⟩ := h.kept (p + j) l' hl'
    refine ⟨l'', by rwa [Nat.add_assoc], ?_⟩
    rcases hsame with rfl | ⟨hexit, x, hx, hjump⟩
    · rcases hsame' with rfl | ⟨hexit, x, hx, hjump⟩
      · exact .inl rfl
      · refine .inr ⟨hexit, x, hx, ?_⟩
        unfold Around at hjump ⊢
        omega
    · rcases hsame' with rfl | ⟨hexit', -⟩
      · refine .inr ⟨hexit, x, hx, ?_⟩
        unfold Around at hjump ⊢
        omega
      · rw [hexit'.hop?] at hx
        cases hx
  · by_cases hd : i < o ∨ o + d.length ≤ i
    · have := h.entry i l x hl hx hd
      unfold Around at this ⊢
      omega
    · -- Inside of `d`, where the instruction is that of `d` or a settled exit.
      obtain ⟨j, rfl⟩ : ∃ j, i = o + j := ⟨i - o, by omega⟩
      have hj : j < d.length := by omega
      obtain ⟨l', hl', hsame⟩ := h.kept j _ (List.getElem?_eq_getElem hj)
      obtain rfl := Option.some.inj (hl.symm.trans hl')
      rcases hsame with rfl | ⟨-, x', hx', hjump⟩
      · have := k.entry j _ x (List.getElem?_eq_getElem hj) hx (by omega)
        unfold Around at this ⊢
        omega
      · obtain rfl := Option.some.inj (hx.symm.trans hx')
        unfold Around at hjump ⊢
        omega

theorem within {c d : Assembly} (hc : c.Jumps (Around c.length e.length) 0)
    (hd : d.Jumps (Around c.length e.length) (c.length + e.length)) :
    Holds (c ++ e ++ d) e c.length := by
  refine ⟨by simp, fun j l hl => ⟨l, ?_, .inl rfl⟩, fun i l h hl hh hout => ?_⟩
  · have hj : j < e.length := (List.getElem?_eq_some_iff.mp hl).1
    rw [List.append_assoc, List.getElem?_append_right (by omega),
      List.getElem?_append_left (by omega), ← hl]
    congr 1
    omega
  · rcases hout with hi | hi
    · rw [List.append_assoc, List.getElem?_append_left hi] at hl
      simpa using hc i l h hl hh
    · rw [List.getElem?_append_right (by simpa using hi)] at hl
      have := hd _ l h hl hh
      rwa [List.length_append, show ((c.length + e.length : Nat) : Int)
        + (i - (c.length + e.length) : Nat) + h = i + h by omega] at this

theorem settle {k : Exit} {jump : Nat → Nat → Asm} (hjump : ∀ j < c.length,
    ∃ h, (jump j (c.length - j - 1)).hop? = some h ∧ Around 0 c.length (j + h)) :
    (c.settle k jump).Holds c 0 := by
  refine ⟨by simp, fun j l hl => ?_, fun i l h hl _ hout => ?_⟩
  · have hj : j < c.length := (List.getElem?_eq_some_iff.mp hl).1
    rw [Nat.zero_add, Assembly.settle, List.getElem?_mapIdx, hl]
    refine ⟨_, rfl, ?_⟩
    obtain ⟨line, a⟩ := l
    cases a with
    | exit i =>
      dsimp only
      split
      · refine .inr ⟨trivial, ?_⟩
        simpa using hjump j hj
      · exact .inl rfl
    | _ => exact .inl rfl
  · have := (List.getElem?_eq_some_iff.mp hl).1
    rw [Assembly.length_settle] at this
    omega

theorem of_settle {k : Exit} {jump : Nat → Nat → Asm} (h : c.Holds (d.settle k jump) o)
    (hjump : ∀ j < d.length, ∃ h, (jump j (d.length - j - 1)).hop? = some h ∧ Around 0 d.length (j + h)) :
    c.Holds d o :=
  h.trans (.settle hjump)

theorem left (hd : d.Closed) : Holds (c ++ d) c 0 := by
  have h := within (c := []) (e := c) .nil (hd.jumps fun t ht _ => .inr (by simpa using ht))
  simpa using h

theorem right (hc : c.Closed) : Holds (c ++ d) d c.length := by
  have h := within (e := d) (d := []) (hc.jumps fun t _ ht => .inl (by simpa using ht)) .nil
  simpa using h

end Holds

variable {line : Int}

theorem Closed.guarded (hc : c.Closed) : Closed (guarded c line) := by
  refine Jumps.append (c := [_]) (.skipIfFalse ?_) (hc.jumps fun t h0 h1 => ?_)
  · exact ⟨by omega, by simp [Assembly.guarded]⟩
  · simp only [List.length_singleton] at h0 h1
    exact ⟨by omega, by simp [Assembly.guarded]; omega⟩

theorem Lacks.guarded {k : Exit} (hc : c.Lacks k) : (guarded c line).Lacks k :=
  List.forall_mem_cons.mpr ⟨by simp, hc⟩

theorem Holds.guarded : Holds (guarded c line) c 1 := by
  have h := within (c := [⟨line, .skipIfFalse c.length⟩]) (e := c) (d := [])
    (.skipIfFalse (.inr (by simp; omega))) .nil
  simpa [Assembly.guarded] using h

theorem length_choice (c d : Assembly) (line : Int) :
    (choice c d line).length = c.length + d.length + 2 := by
  simp [choice]
  omega

theorem Closed.choice (hc : c.Closed) (hd : d.Closed) : Closed (choice c d line) := by
  have hlen := length_choice c d line
  refine Jumps.append (Jumps.append (Jumps.append (.skipIfFalse ?_) (hc.jumps fun t h0 h1 => ?_))
    (.skip ?_)) (hd.jumps fun t h0 h1 => ?_) <;> rw [Among, hlen]
  · omega
  · simp only [List.length_singleton] at h0 h1
    omega
  · simp only [List.length_append, List.length_singleton]
    omega
  · simp only [List.length_append, List.length_singleton] at h0 h1
    omega

theorem Lacks.choice {k : Exit} (hc : c.Lacks k) (hd : d.Lacks k) : (choice c d line).Lacks k :=
  (((single (by simp)).append hc).append (single (by simp))).append hd

theorem Holds.choice_left (hd : d.Closed) : Holds (choice c d line) c 1 := by
  have h := within (c := [⟨line, .skipIfFalse (c.length + 1)⟩]) (e := c)
    (d := [⟨line, .skip d.length⟩] ++ d)
    (.skipIfFalse (.inr (by simp; omega)))
    (.append (.skip (.inr (by simp; omega)))
      (hd.jumps fun t h0 _ => .inr (by simp only [List.length_singleton] at h0 ⊢; omega)))
  simpa [Assembly.choice] using h

theorem Holds.choice_right (hc : c.Closed) : Holds (choice c d line) d (c.length + 2) := by
  have h := within (c := [⟨line, .skipIfFalse (c.length + 1)⟩] ++ c ++ [⟨line, .skip d.length⟩])
    (e := d) (d := [])
    (.append (.append (.skipIfFalse (.inl (by simp)))
      (hc.jumps fun t _ h1 => .inl (by simp at h1 ⊢; omega)))
        (.skip (.inr (by simp; omega)))) .nil
  simpa [Assembly.choice, Nat.add_comm, Nat.add_left_comm] using h

section

variable {tests body rest : Assembly}

theorem length_arm (tests body rest : Assembly) (line : Int) :
    (arm tests body rest line).length = tests.length + body.length + 1 + rest.length := by
  simp [arm]
  omega

theorem Closed.arm (ht : tests.Closed) (hb : body.Closed) (hr : rest.Closed) :
    Closed (arm tests body rest line) := by
  have hlen := length_arm tests body rest line
  refine Jumps.append (Jumps.append (Jumps.append (.settle (ht.jumps fun t h0 h1 => ?_)
    fun j hj h hh => ?_) (hb.jumps fun t h0 h1 => ?_)) (.skip ?_)) (hr.jumps fun t h0 h1 => ?_) <;>
    rw [Among, hlen]
  · omega
  · obtain rfl := Option.some.inj hh
    omega
  · simp only [length_settle] at h0 h1
    omega
  · simp only [List.length_append, length_settle]
    omega
  · simp only [List.length_append, length_settle, List.length_singleton] at h0 h1
    omega

theorem Closed.skipped (hr : rest.Closed) : Closed ([⟨line, .skip rest.length⟩] ++ rest) := by
  refine Jumps.append (.skip ?_) (hr.jumps fun t h0 h1 => ?_) <;>
    simp only [Among, List.length_append, List.length_singleton] at *
  · omega
  · omega

theorem Lacks.arm (hb : body.Lacks .miss) (hr : rest.Lacks .miss) :
    (arm tests body rest line).Lacks .miss :=
  (((settled (by simp)).append hb).append (single (by simp))).append hr

theorem Holds.arm_tests (hb : body.Closed) (hr : rest.Closed) :
    Holds (arm tests body rest line) tests 0 := by
  have h : Holds (arm tests body rest line)
      (tests.settle .miss fun _ behind => .skipIfFalse (behind + body.length + 1)) 0 := by
    rw [Assembly.arm, List.append_assoc, List.append_assoc]
    exact left (hb.append hr.skipped)
  exact h.of_settle fun j hj => ⟨_, rfl, .inr (by omega)⟩

theorem Holds.arm_body (ht : tests.Closed) (hr : rest.Closed) :
    Holds (arm tests body rest line) body tests.length := by
  have h := within (e := body) (d := [⟨line, .skip rest.length⟩] ++ rest)
    (c := tests.settle .miss fun _ behind => .skipIfFalse (behind + body.length + 1))
    (.settle (ht.jumps fun t _ h1 => .inl (by simpa using h1)) fun j hj h hh =>
      .inr (by obtain rfl := Option.some.inj hh; simp only [length_settle]; omega))
    (hr.skipped.jumps fun t h0 _ => .inr (by simpa using h0))
  simpa [Assembly.arm] using h

theorem Holds.arm_rest (ht : tests.Closed) (hb : body.Closed) :
    Holds (arm tests body rest line) rest (tests.length + body.length + 1) := by
  have h := within (e := rest) (d := [])
    (c := (tests.settle .miss fun _ behind => .skipIfFalse (behind + body.length + 1)) ++ body
      ++ [⟨line, .skip rest.length⟩])
    (.append (.append (.settle (ht.jumps fun t _ h1 => .inl (by simp; omega)) fun j hj h hh =>
      .inl (by obtain rfl := Option.some.inj hh; simp; omega))
        (hb.jumps fun t _ h1 => .inl (by simp at h1 ⊢; omega))) (.skip (.inr (by simp; omega)))) .nil
  simpa [Assembly.arm, Nat.add_assoc] using h

end

section

variable {test head body step : Assembly} {next : Nat → Nat → Asm}

theorem length_loop (test head body step : Assembly) (next : Nat → Nat → Asm) (line : Int) :
    (loop test head body step next line).length
      = test.length + 1 + head.length + body.length + step.length + 1 := by
  simp [loop]
  omega

/-- Where the exits to the next round go: to the step, or back to the test if there is no step. -/
def Rounds (test head step : Assembly) (next : Nat → Nat → Asm) : Prop :=
  (next = fun _ behind => .skip behind) ∨
    head = [] ∧ step = [] ∧ next = fun before _ => .back (test.length + 1 + before)

theorem Rounds.count : Rounds test head step fun _ behind => .skip behind := .inl rfl

theorem Rounds.back : Rounds test [] [] fun before _ => .back (test.length + 1 + before) :=
  .inr ⟨rfl, rfl, rfl⟩

theorem Rounds.jumps (hn : Rounds test head step next) {n j : Nat} (hj : j < n) {h : Int}
    (hh : (next j (n - j - 1)).hop? = some h) :
    (j : Int) + h = n ∨ head = [] ∧ step = [] ∧ (j : Int) + h = -(test.length + 1) := by
  rcases hn with rfl | ⟨hhead, hstep, rfl⟩
  · obtain rfl := Option.some.inj hh
    exact .inl (by omega)
  · obtain rfl := Option.some.inj hh
    exact .inr ⟨hhead, hstep, by omega⟩

theorem Rounds.hop? (hn : Rounds test head step next) (i j : Nat) : ∃ h, (next i j).hop? = some h := by
  rcases hn with rfl | ⟨-, -, rfl⟩ <;> exact ⟨_, rfl⟩

abbrev round (step body : Assembly) (next : Nat → Nat → Asm) : Assembly :=
  (body.settle .leave fun _ behind => .skip (behind + step.length + 1)).settle .next next

theorem loop_eq : loop test head body step next line =
    test ++ [⟨line, .skipIfFalse (head.length + body.length + step.length + 1)⟩] ++ head
      ++ round step body next ++ step
        ++ [⟨line, .back (test.length + 1 + (head.length + body.length + step.length))⟩] := by
  simp [loop, round, Nat.add_assoc]

theorem round_jumps {P : Int → Prop} (hn : Rounds test head step next) (hb : body.Closed)
    (hbody : ∀ t : Int, o ≤ t → t ≤ o + body.length → P t) (hleave : P (o + body.length + step.length + 1))
    (hnext : head = [] → step = [] → P (o - (test.length + 1))) : (round step body next).Jumps P o := by
  refine .settle (.settle (hb.jumps hbody) fun j hj h hh => ?_) fun j hj h hh => ?_
  · obtain rfl := Option.some.inj hh
    rwa [show (o : Int) + j + ((body.length - j - 1 + step.length + 1 : Nat) + 1)
      = o + body.length + step.length + 1 by omega]
  · simp only [length_settle] at hj hh
    rcases hn.jumps hj hh with h1 | ⟨hhead, hstep, h1⟩
    · exact hbody _ (by omega) (by omega)
    · rw [show (o : Int) + j + h = o - (test.length + 1) by omega]
      exact hnext hhead hstep

theorem Closed.loop (hn : Rounds test head step next) (ht : test.Closed) (hh : head.Closed)
    (hb : body.Closed) (hs : step.Closed) : Closed (loop test head body step next line) := by
  have hlen := length_loop test head body step next line
  suffices h : ∀ P : Int → Prop, (∀ t, Among (Assembly.loop test head body step next line).length t → P t) →
      (Assembly.loop test head body step next line).Jumps P 0 from h _ fun _ => id
  rw [hlen, loop_eq]
  intro P hP
  refine .append (.append (.append (.append (.append (ht.jumps fun t h0 h1 => ?_) (.skipIfFalse ?_))
    (hh.jumps fun t h0 h1 => ?_)) (round_jumps hn hb (fun t h0 h1 => ?_) ?_ fun hhead hstep => ?_))
      (hs.jumps fun t h0 h1 => ?_)) (.back ?_) <;> apply hP <;> grind [Among, length_settle]

theorem Lacks.loop (hn : Rounds test head step next) {k : Exit} (ht : test.Lacks k) (hh : head.Lacks k)
    (hb : body.Lacks k) (hs : step.Lacks k) : (loop test head body step next line).Lacks k := by
  have hnext : ∀ i j, next i j ≠ .exit k := fun i j he => by
    obtain ⟨h, hh⟩ := hn.hop? i j
    rw [he] at hh
    cases hh
  rw [loop_eq]
  exact ((((ht.append (single (by simp))).append hh).append
    ((hb.settle (by simp)).settle hnext)).append hs).append (single (by simp))

theorem Holds.loop_test (hh : head.Closed) (hb : body.Closed) (hs : step.Closed)
    (hn : Rounds test head step next) : Holds (loop test head body step next line) test 0 := by
  have hafter : Jumps (Around 0 test.length) (0 + test.length)
      ([⟨line, .skipIfFalse (head.length + body.length + step.length + 1)⟩] ++ head
        ++ round step body next ++ step
          ++ [⟨line, .back (test.length + 1 + (head.length + body.length + step.length))⟩]) := by
    refine .append (.append (.append (.append (.skipIfFalse (.inr ?_)) (hh.jumps fun t h0 h1 => .inr ?_))
      (round_jumps hn hb (fun t h0 h1 => .inr ?_) (.inr ?_) fun hhead hstep => .inl ?_))
        (hs.jumps fun t h0 h1 => .inr ?_)) (.back (.inl ?_)) <;> grind [length_settle]
  have h := within (c := []) .nil hafter
  rw [loop_eq]
  simpa only [List.nil_append, List.append_assoc, List.length_nil] using h

theorem Holds.loop_body (ht : test.Closed) (hh : head.Closed) (hs : step.Closed)
    (hn : Rounds test head step next) :
    Holds (loop test head body step next line) body (test.length + 1 + head.length) := by
  let before := test ++ [⟨line, .skipIfFalse (head.length + body.length + step.length + 1)⟩] ++ head
  have hlen : before.length = test.length + 1 + head.length := by
    simp [before]
    omega
  have hbefore : before.Jumps (Around before.length (round step body next).length) 0 := by
    rw [hlen]
    refine .append (.append (ht.jumps fun t h0 h1 => .inl ?_) (.skipIfFalse (.inr ?_)))
      (hh.jumps fun t h0 h1 => .inl ?_) <;> grind [length_settle]
  have hafter : Jumps (Around before.length (round step body next).length)
      (before.length + (round step body next).length)
        (step ++ [⟨line, .back (test.length + 1 + (head.length + body.length + step.length))⟩]) := by
    rw [hlen]
    refine .append (hs.jumps fun t h0 h1 => .inr ?_) (.back (.inl ?_)) <;> grind [length_settle]
  have h := within hbefore hafter
  rw [hlen, List.append_assoc before] at h
  rw [loop_eq, List.append_assoc, List.append_assoc]
  refine (h.of_settle fun j hj => ?_).of_settle fun j hj => ⟨_, rfl, .inr (by omega)⟩
  obtain ⟨x, hx⟩ := hn.hop? j ((body.settle .leave fun _ behind => .skip
    (behind + step.length + 1)).length - j - 1)
  refine ⟨x, hx, ?_⟩
  rcases hn.jumps hj hx with h1 | ⟨-, -, h1⟩
  · exact .inr (by omega)
  · exact .inl (by omega)

end

end Assembly

end Scripting
