import Scripting.Proofs.Code.Layout

/-!
# Code and its shapes

`Flows C E code a b` says that code which is entered in shape `a` is left in shape `b`, wherever it
is placed. The lemmas put code together the way `Assembly` does.
-/

namespace Scripting

open Shape (Within)

/-- Exits of some kinds, and what has to be known where they go. -/
abbrev Exits := Exit → Option Shape

/-- No exit may be left. -/
def Exits.none : Exits := fun _ => Option.none

def Exits.set (E : Exits) (k : Exit) (s : Shape) : Exits := fun j => if j = k then some s else E j

namespace Limits

variable (C : Limits)

def Sits (E : Exits) (size : Nat) (shape : Nat → Shape) (o : Nat) (code : Assembly) : Prop :=
  ∀ j l, code[j]? = some l → C.Good E size shape (o + j) l.asm

def Agrees (shape : Nat → Shape) (o n : Nat) (f : Nat → Shape) : Prop :=
  ∀ j < n, shape (o + j) = f j

def glue (n : Nat) (f g : Nat → Shape) : Nat → Shape := fun j => if j < n then f j else g (j - n)

end Limits

/-- Code that takes shape `a` to shape `b`. -/
def Flows (C : Limits) (E : Exits) (code : Assembly) (a b : Shape) : Prop :=
  ∃ f, ∀ size shape o, o + code.length < size → Limits.Agrees shape o code.length f →
    Within C.exact b (shape (o + code.length)) →
      Within C.exact a (shape o) ∧ C.Sits E size shape o code

/-- Code that is entered in shape `a` and never left at its end. -/
def Ends (C : Limits) (E : Exits) (code : Assembly) (a : Shape) : Prop :=
  code ≠ [] ∧ ∃ f, ∀ size shape o, o + code.length ≤ size → Limits.Agrees shape o code.length f →
    Within C.exact a (shape o) ∧ C.Sits E size shape o code

namespace Limits

variable {C : Limits} {E : Exits} {size n m o : Nat} {shape f g : Nat → Shape} {c d : Assembly}

theorem Sits.nil : C.Sits E size shape o [] := by
  intro j l hl
  simp at hl

theorem Sits.append (hc : C.Sits E size shape o c) (hd : C.Sits E size shape (o + c.length) d) :
    C.Sits E size shape o (c ++ d) := by
  intro j l hl
  rcases Nat.lt_or_ge j c.length with hj | hj
  · rw [List.getElem?_append_left hj] at hl
    exact hc j l hl
  · rw [List.getElem?_append_right hj] at hl
    have := hd _ l hl
    rwa [show o + c.length + (j - c.length) = o + j by omega] at this

theorem Sits.single {line : Int} {a : Asm} (h : C.Good E size shape o a) :
    C.Sits E size shape o [⟨line, a⟩] := by
  intro j l hl
  obtain ⟨rfl, rfl⟩ : j = 0 ∧ l = ⟨line, a⟩ := by
    cases j with
    | zero => simpa using hl.symm
    | succ j => simp at hl
  exact h

theorem Sits.fits (h : C.Sits E size shape o c) : c.Fits := by
  intro l hl
  obtain ⟨i, hi⟩ := List.mem_iff_getElem?.mp hl
  have hgood := h i l hi
  cases hasm : l.asm with
  | op k ns =>
    rw [hasm] at hgood
    exact hgood.1
  | closure k cs =>
    rw [hasm] at hgood
    exact hgood.1
  | _ => trivial

theorem Agrees.left (h : Agrees shape o (n + m) (glue n f g)) : Agrees shape o n f := by
  intro j hj
  rw [h j (by omega), glue, if_pos hj]

theorem Agrees.right (h : Agrees shape o (n + m) (glue n f g)) : Agrees shape (o + n) m g := by
  intro j hj
  rw [Nat.add_assoc, h (n + j) (by omega), glue, if_neg (by omega)]
  congr 1
  omega

theorem Good.other {k : Exit} {s : Shape} {i : Nat} {a : Asm} (ha : a ≠ .exit k)
    (h : C.Good (E.set k s) size shape i a) : C.Good E size shape i a := by
  cases a with
  | exit j =>
    have hne : j ≠ k := fun hj => ha (hj ▸ rfl)
    cases j with
    | miss =>
      obtain ⟨hpos, hnext, hdrop, t, ht, hw⟩ := h
      rw [Exits.set, if_neg hne] at ht
      exact ⟨hpos, hnext, hdrop, t, ht, hw⟩
    | leave | next =>
      obtain ⟨t, ht, hw⟩ := h
      rw [Exits.set, if_neg hne] at ht
      exact ⟨t, ht, hw⟩
  | _ => exact h

theorem Sits.settle {k : Exit} {s : Shape} (jump : Nat → Nat → Asm)
    (h : C.Sits (E.set k s) size shape o c)
    (hjump : ∀ j < c.length, C.Good (E.set k s) size shape (o + j) (.exit k) →
      C.Good E size shape (o + j) (jump j (c.length - j - 1))) :
    C.Sits E size shape o (c.settle k jump) := by
  intro j l hl
  rw [Assembly.settle, List.getElem?_mapIdx] at hl
  obtain ⟨m, hm, rfl⟩ := Option.map_eq_some_iff.mp hl
  have hgood := h j m hm
  have hj : j < c.length := (List.getElem?_eq_some_iff.mp hm).1
  obtain ⟨line, a⟩ := m
  cases a with
  | exit i =>
    dsimp only
    split
    · rename_i hi
      subst hi
      exact hjump j hj hgood
    · rename_i hi
      exact hgood.other fun he => hi (Asm.exit.inj he)
  | _ => exact hgood.other nofun

end Limits

namespace Assembly

@[simp] theorem length_settle (k : Exit) (jump : Nat → Nat → Asm) (code : Assembly) :
    (code.settle k jump).length = code.length := by simp [settle]

/-- A loop: while the test holds, `head`, `body` and `step`. The next round is started by `next`. -/
def loop (test head body step : Assembly) (next : Nat → Nat → Asm) (line : Int) : Assembly :=
  let body := body.settle .leave fun _ behind => .skip (behind + step.length + 1)
  let round := head ++ body.settle .next next ++ step
  test ++ [⟨line, .skipIfFalse (round.length + 1)⟩] ++ round
    ++ [⟨line, .back (test.length + 1 + round.length)⟩]

theorem countLoop_eq (test head body step : Assembly) (line : Int) :
    countLoop test head body step line = loop test head body step (fun _ behind => .skip behind) line :=
  rfl

theorem whileLoop_eq (test body : Assembly) (line : Int) :
    whileLoop test body line
      = loop test [] body [] (fun before _ => .back (test.length + 1 + before)) line := by
  simp [whileLoop, loop]

end Assembly

namespace Flows

variable {C : Limits} {E : Exits} {c d : Assembly} {a a' b b' s : Shape}

theorem nil (h : Within C.exact a b) : Flows C E [] a b :=
  ⟨fun _ => a, fun _ _ _ _ _ hend => ⟨h.trans hend, .nil⟩⟩

theorem append (hc : Flows C E c a b) (hd : Flows C E d b s) : Flows C E (c ++ d) a s := by
  obtain ⟨f, hc⟩ := hc
  obtain ⟨g, hd⟩ := hd
  refine ⟨Limits.glue c.length f g, fun size shape o hsize hagrees hend => ?_⟩
  rw [List.length_append] at hsize hagrees hend
  rw [← Nat.add_assoc] at hend hsize
  obtain ⟨hstart, hsits⟩ := hd size shape (o + c.length) hsize hagrees.right hend
  obtain ⟨hstart', hsits'⟩ := hc size shape o (by omega) hagrees.left hstart
  exact ⟨hstart', hsits'.append hsits⟩

theorem post (h : Flows C E c a b) (hb : Within C.exact b b') : Flows C E c a b' := by
  obtain ⟨f, h⟩ := h
  exact ⟨f, fun size shape o hsize hagrees hend => h size shape o hsize hagrees (hb.trans hend)⟩

theorem op {c : Opcode} {ns : List Nat} {line : Int} (hfits : (Asm.op c ns).Fits)
    (hpops : c.pops ns ≤ a.height) (hasks : C.Asks a c ns) :
    Flows C E [⟨line, .op c ns⟩] a (a.after c ns) := by
  refine ⟨fun _ => a, fun size shape o hsize hagrees hend => ?_⟩
  have hat : shape o = a := hagrees 0 (by simp)
  refine ⟨hat ▸ .refl _ _, .single ?_⟩
  rw [Limits.Good, hat]
  exact ⟨hfits, hpops, hasks, fun _ => ⟨hsize, hend⟩⟩

theorem closure {k : Nat} {cs : List Capture} {line : Int} (hfits : (Asm.closure k cs).Fits)
    (hk : ∃ r, C.pool[k]? = some (.func r)) (hcs : ∀ c ∈ cs, C.Finds a c) :
    Flows C E [⟨line, .closure k cs⟩] a a.push := by
  refine ⟨fun _ => a, fun size shape o hsize hagrees hend => ?_⟩
  have hat : shape o = a := hagrees 0 (by simp)
  refine ⟨hat ▸ .refl _ _, .single ?_⟩
  rw [Limits.Good, hat]
  exact ⟨hfits, hk, hcs, hsize, hend⟩

theorem ret {line : Int} (h : 0 < a.height) : Flows C E [⟨line, .op .ret []⟩] a b := by
  refine ⟨fun _ => a, fun size shape o hsize hagrees hend => ?_⟩
  have hat : shape o = a := hagrees 0 (by simp)
  refine ⟨hat ▸ .refl _ _, .single ?_⟩
  rw [Limits.Good, hat]
  exact ⟨⟨rfl, .nil⟩, h, trivial, fun h => absurd rfl h⟩

theorem leaves {k : Exit} {line : Int} (hk : k ≠ .miss) (hs : E k = some s)
    (h : Within C.exact a s) : Flows C E [⟨line, .exit k⟩] a b := by
  refine ⟨fun _ => a, fun size shape o hsize hagrees hend => ?_⟩
  have hat : shape o = a := hagrees 0 (by simp)
  refine ⟨hat ▸ .refl _ _, .single ?_⟩
  cases k with
  | miss => exact absurd rfl hk
  | leave | next => exact ⟨s, hs, hat ▸ h⟩

theorem misses {line : Int} (hs : E .miss = some s) (h : 0 < a.height)
    (hw : Within C.exact a.drop s) : Flows C E [⟨line, .exit .miss⟩] a a.drop := by
  refine ⟨fun _ => a, fun size shape o hsize hagrees hend => ?_⟩
  have hat : shape o = a := hagrees 0 (by simp)
  refine ⟨hat ▸ .refl _ _, .single ?_⟩
  rw [Limits.Good, hat]
  exact ⟨h, hsize, hend, s, hs, hw⟩

theorem guarded {line : Int} (h : Flows C E c a b) (hskip : Within C.exact a b) :
    Flows C E (Assembly.guarded c line) a.push b := by
  obtain ⟨f, h⟩ := h
  refine ⟨Limits.glue 1 (fun _ => a.push) f, fun size shape o hsize hagrees hend => ?_⟩
  rw [Assembly.guarded, List.length_cons, Nat.add_comm c.length 1] at hsize hagrees hend
  rw [← Nat.add_assoc] at hsize hend
  have hat : shape o = a.push := hagrees.left 0 (by simp)
  obtain ⟨hstart, hsits⟩ := h size shape (o + 1) hsize hagrees.right hend
  refine ⟨hat ▸ .refl _ _, Limits.Sits.append (.single ?_) hsits⟩
  rw [Limits.Good, hat, Shape.drop_push]
  exact ⟨Nat.succ_pos _, hsize, hstart, hskip.trans hend⟩

theorem choice {line : Int} (hc : Flows C E c a b) (hd : Flows C E d a b) :
    Flows C E (Assembly.choice c d line) a.push b := by
  obtain ⟨f, hc⟩ := hc
  obtain ⟨g, hd⟩ := hd
  refine ⟨Limits.glue 1 (fun _ => a.push) (Limits.glue c.length f (Limits.glue 1 (fun _ => b) g)),
    fun size shape o hsize hagrees hend => ?_⟩
  have hlen : (Assembly.choice c d line).length = 1 + (c.length + (1 + d.length)) := by
    simp [Assembly.choice]
    omega
  rw [hlen] at hsize hagrees hend
  have hyes := hagrees.right
  have hno := hyes.right.right
  have hat : shape o = a.push := hagrees.left 0 (by simp)
  have hat' : shape (o + 1 + c.length) = b := hyes.right.left 0 (by simp)
  rw [show o + (1 + (c.length + (1 + d.length))) = o + 1 + c.length + 1 + d.length by omega] at hsize hend
  obtain ⟨hstart', hsits'⟩ := hd size shape _ hsize hno hend
  obtain ⟨hstart, hsits⟩ := hc size shape (o + 1) (by omega) hyes.left (hat' ▸ .refl _ _)
  refine ⟨hat ▸ .refl _ _, ?_⟩
  have hskip : C.Sits E size shape (o + 1 + c.length) [⟨line, .skip d.length⟩] := by
    refine .single ?_
    rw [Limits.Good, hat']
    exact ⟨hsize, hend⟩
  have htest : C.Sits E size shape o [⟨line, .skipIfFalse (c.length + 1)⟩] := by
    refine .single ?_
    rw [Limits.Good, hat, Shape.drop_push]
    refine ⟨Nat.succ_pos _, by omega, hstart, ?_⟩
    rw [show o + 1 + (c.length + 1) = o + 1 + c.length + 1 by omega]
    exact hstart'
  rw [Assembly.choice, List.append_assoc, List.append_assoc]
  exact htest.append (hsits.append (hskip.append hsits'))

theorem arm {tests rest : Assembly} {line : Int} (ht : Flows C (E.set .miss a) tests a b)
    (hc : Flows C E c b s) (hr : Flows C E rest a s) :
    Flows C E (Assembly.arm tests c rest line) a s := by
  obtain ⟨e, ht⟩ := ht
  obtain ⟨f, hc⟩ := hc
  obtain ⟨g, hr⟩ := hr
  refine ⟨Limits.glue tests.length e (Limits.glue c.length f (Limits.glue 1 (fun _ => s) g)),
    fun size shape o hsize hagrees hend => ?_⟩
  have hlen : (Assembly.arm tests c rest line).length
      = tests.length + (c.length + (1 + rest.length)) := by
    simp [Assembly.arm]
    omega
  rw [hlen] at hsize hagrees hend
  have hbody := hagrees.right
  have hrest := hbody.right.right
  have hat : shape (o + tests.length + c.length) = s := hbody.right.left 0 (by simp)
  rw [show o + (tests.length + (c.length + (1 + rest.length)))
    = o + tests.length + c.length + 1 + rest.length by omega] at hsize hend
  obtain ⟨hrstart, hrsits⟩ := hr size shape _ hsize hrest hend
  obtain ⟨hcstart, hcsits⟩ := hc size shape _ (by omega) hbody.left (hat ▸ .refl _ _)
  obtain ⟨htstart, htsits⟩ := ht size shape o (by omega) hagrees.left hcstart
  have hskip : C.Sits E size shape (o + tests.length + c.length) [⟨line, .skip rest.length⟩] := by
    refine .single ?_
    rw [Limits.Good, hat]
    exact ⟨hsize, hend⟩
  refine ⟨htstart, ?_⟩
  have htests := Limits.Sits.settle (fun _ behind => .skipIfFalse (behind + c.length + 1)) htsits ?_
  · rw [Assembly.arm, List.append_assoc, List.append_assoc]
    refine htests.append ?_
    rw [Assembly.length_settle]
    exact hcsits.append (hskip.append hrsits)
  · rintro j hj ⟨hpos, hnext, hdrop, t, ht, hw⟩
    rw [Exits.set, if_pos rfl] at ht
    obtain rfl := Option.some.inj ht
    refine ⟨hpos, by omega, hdrop, ?_⟩
    rw [show o + j + 1 + (tests.length - j - 1 + c.length + 1)
      = o + tests.length + c.length + 1 by omega]
    exact hw.trans hrstart

/-- A loop. Exits from its body go behind it or to the next round, which starts with the step, or with
the test if there is no step. -/
theorem loop {test head body step : Assembly} {next : Nat → Nat → Asm} {line : Int}
    (ht : Flows C E test a a.push) (hh : Flows C E head a s)
    (hb : Flows C ((E.set .next b).set .leave a) body s b) (hs : Flows C E step b a)
    (hnext : (next = fun _ behind => .skip behind) ∨
      (head = [] ∧ step = [] ∧ b = a ∧ next = fun before _ => .back (test.length + 1 + before))) :
    Flows C E (Assembly.loop test head body step next line) a a := by
  obtain ⟨ft, ht⟩ := ht
  obtain ⟨fh, hh⟩ := hh
  obtain ⟨fb, hb⟩ := hb
  obtain ⟨fs, hs⟩ := hs
  refine ⟨Limits.glue test.length ft (Limits.glue 1 (fun _ => a.push) (Limits.glue head.length fh
    (Limits.glue body.length fb (Limits.glue step.length fs fun _ => a)))),
    fun size shape o hsize hagrees hend => ?_⟩
  have hlen : (Assembly.loop test head body step next line).length
      = test.length + (1 + (head.length + (body.length + (step.length + 1)))) := by
    simp [Assembly.loop]
    omega
  rw [hlen] at hsize hagrees hend
  have hhead := hagrees.right.right
  have hbody := hhead.right
  have hstep := hbody.right
  have hatTest : shape (o + test.length) = a.push := hagrees.right.left 0 (by simp)
  have hatBack : shape (o + test.length + 1 + head.length + body.length + step.length) = a :=
    hstep.right 0 (by simp)
  rw [show o + (test.length + (1 + (head.length + (body.length + (step.length + 1)))))
    = o + test.length + 1 + head.length + body.length + step.length + 1 by omega] at hsize hend
  -- from the end to the start: what is known behind a piece is known where the next one starts
  obtain ⟨hsstart, hssits⟩ := hs size shape _ (by omega) hstep.left (hatBack ▸ .refl _ _)
  obtain ⟨hbstart, hbsits⟩ := hb size shape _ (by omega) hbody.left hsstart
  obtain ⟨hhstart, hhsits⟩ := hh size shape _ (by omega) hhead.left hbstart
  obtain ⟨htstart, htsits⟩ := ht size shape o (by omega) hagrees.left (hatTest ▸ .refl _ _)
  refine ⟨htstart, ?_⟩
  have hleave := Limits.Sits.settle (fun _ behind => .skip (behind + step.length + 1)) hbsits ?leave
  have hround := Limits.Sits.settle next hleave ?next
  · have htest : C.Sits E size shape (o + test.length)
        [⟨line, .skipIfFalse (head.length + body.length + step.length + 1)⟩] := by
      refine .single ?_
      rw [Limits.Good, hatTest, Shape.drop_push]
      refine ⟨Nat.succ_pos _, by omega, hhstart, ?_⟩
      rw [show o + test.length + 1 + (head.length + body.length + step.length + 1)
        = o + test.length + 1 + head.length + body.length + step.length + 1 by omega]
      exact hend
    have hback : C.Sits E size shape (o + test.length + 1 + head.length + body.length + step.length)
        [⟨line, .back (test.length + 1 + (head.length + body.length + step.length))⟩] := by
      refine .single ?_
      rw [Limits.Good, hatBack]
      refine ⟨by omega, ?_⟩
      rw [show o + test.length + 1 + head.length + body.length + step.length
        - (test.length + 1 + (head.length + body.length + step.length)) = o by omega]
      exact htstart
    have hall := htsits.append (htest.append ((hhsits.append (hround.append
      (d := step) (by simpa using hssits))).append (d := _) (by
        simpa [Nat.add_assoc] using hback)))
    simpa [Assembly.loop, Nat.add_assoc] using hall
  case leave =>
    rintro j hj ⟨t, ht, hw⟩
    rw [Exits.set, if_pos rfl] at ht
    obtain rfl := Option.some.inj ht
    refine ⟨by omega, ?_⟩
    rw [show o + test.length + 1 + head.length + j + 1 + (body.length - j - 1 + step.length + 1)
      = o + test.length + 1 + head.length + body.length + step.length + 1 by omega]
    exact hw.trans hend
  case next =>
    rw [Assembly.length_settle]
    rintro j hj ⟨t, ht, hw⟩
    rw [Exits.set, if_pos rfl] at ht
    obtain rfl := Option.some.inj ht
    rcases hnext with rfl | ⟨rfl, rfl, rfl, rfl⟩
    · refine ⟨by omega, ?_⟩
      rw [show o + test.length + 1 + head.length + j + 1 + (body.length - j - 1)
        = o + test.length + 1 + head.length + body.length by omega]
      exact hw.trans hsstart
    · refine ⟨by omega, ?_⟩
      rw [show o + test.length + 1 + ([] : Assembly).length + j - (test.length + 1 + j) = o by
        simp only [List.length_nil]
        omega]
      exact hw.trans htstart

end Flows

end Scripting
