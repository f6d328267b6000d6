import Scripting.Proofs.Scope.Declaring
import Scripting.Proofs.Scope.Widen

/-!
# Resolved trees are scoped

Name resolution gives trees in which every name finds its variable and every declaration takes a
fresh slot, and in which functions have different numbers.
-/

namespace Scripting.Resolve

variable {p : Program}

def Placed (q : Program) (b : BindingId) (i : Nat) : Prop :=
  b < q.bindings.size ∧ (q.binding b).storage = .frame ∧ (q.binding b).index = i

theorem Placed.grow {q r : Program} {b : BindingId} {i : Nat} (h : Placed q b i) (hg : q.Grows r) :
    Placed r b i :=
  ⟨Nat.lt_of_lt_of_le h.1 hg.size, (hg.storage b h.1).trans h.2.1, (hg.index b h.1).trans h.2.2⟩

theorem declare_placed {s : State} {f : Frame} {fs : List Frame} (hf : s.frames = f :: fs)
    (hs : s.scopes ≠ []) (name : String) (tok : Token) :
    ((declare name tok).run s).2.frames = { f with nextSlot := f.nextSlot + 1 } :: fs ∧
      ((declare name tok).run s).2.scopes ≠ [] ∧
      Placed ((declare name tok).run s).2.program ((declare name tok).run s).1 f.nextSlot := by
  obtain ⟨q, scs, fs', errs⟩ := s
  obtain rfl : fs' = f :: fs := hf
  cases scs with
  | nil => exact absurd rfl hs
  | cons sc scs =>
    refine ⟨rfl, List.cons_ne_nil _ _, ?_⟩
    have hx := q.binding_push_size
      { name := name, index := f.nextSlot, storage := .frame, depth := f.depth, token := tok }
    refine ⟨?_, congrArg Binding.storage hx, congrArg Binding.index hx⟩
    show q.bindings.size < (q.bindings.push _).size
    simp

theorem declareParams_placed : (ps : List (Param .parsed)) → {s : State} → {f : Frame} →
    {fs : List Frame} → s.frames = f :: fs → s.scopes ≠ [] → ∀ (j : Nat) (b : BindingId),
    (((declareParams ps).run s).1.map (·.decl))[j]? = some b →
      Placed ((declareParams ps).run s).2.program b (f.nextSlot + j)
  | [], _, _, _, _, _, j, b, hb => by
    cases hb
  | q :: qs, s, f, fs, hf, hs, j, b, hb => by
    obtain ⟨hframes, hscopes, hplaced⟩ := declare_placed hf hs q.name.text q.name.token
    have hrest := declareParams_placed qs hframes hscopes
    have hlater := (declareParams_gives qs ((declare q.name.text q.name.token).run s).2).1
    cases j with
    | zero =>
      obtain rfl : ((declare q.name.text q.name.token).run s).1 = b := Option.some.inj hb
      exact hplaced.grow hlater.program
    | succ j =>
      have := hrest j b hb
      rwa [Nat.add_right_comm, Nat.add_assoc] at this

/-- The receiver, if there is one, and the parameters. -/
def parts (hasSelf : Bool) (tok : Token) (ps : List (Param .parsed)) :
    Resolve (Option BindingId × List (Param .resolved)) := do
  let self ← if hasSelf then some <$> declare "self" tok else pure none
  let ps ← declareParams ps
  return (self, ps)

def partDecls (a : Option BindingId × List (Param .resolved)) : List BindingId :=
  a.1.toList ++ a.2.map (·.decl)

theorem parts_gives (hasSelf : Bool) (tok : Token) (ps : List (Param .parsed)) :
    Gives (parts hasSelf tok ps) fun p R k a l => DeclaresAll p R k (partDecls a) l ∧
      (partDecls a).length = ps.length + if hasSelf then 1 else 0 := by
  cases hasSelf with
  | false =>
    refine ((Gives.pure none).bind fun self => (declareParams_gives ps).bind fun qs =>
      Gives.pure (self, qs)).mono ?_
    rintro p R k a l ⟨self, i, ⟨rfl, rfl⟩, qs, j, ⟨hps, hlen⟩, rfl, rfl⟩
    exact ⟨hps, by simpa [partDecls] using hlen⟩
  | true =>
    refine (((declare_gives "self" tok).bind fun b => Gives.pure (some b)).bind fun self =>
      (declareParams_gives ps).bind fun qs => Gives.pure (self, qs)).mono ?_
    rintro p R k a l ⟨self, i, ⟨b, h, hdecl, rfl, rfl⟩, qs, j, ⟨hps, hlen⟩, rfl, rfl⟩
    refine ⟨⟨i, hdecl, hps⟩, ?_⟩
    simp [partDecls, hlen]

theorem parts_placed (hasSelf : Bool) (tok : Token) (ps : List (Param .parsed)) {s : State}
    {depth : Nat} {fs : List Frame} (hf : s.frames = { depth } :: fs) (hs : s.scopes ≠ []) (j : Nat)
    (b : BindingId) (hb : (partDecls ((parts hasSelf tok ps).run s).1)[j]? = some b) :
    Placed ((parts hasSelf tok ps).run s).2.program b j := by
  cases hasSelf with
  | false =>
    have hplaced := declareParams_placed ps hf hs j b hb
    rw [Nat.zero_add] at hplaced
    exact hplaced
  | true =>
    obtain ⟨hframes, hscopes, hplaced⟩ := declare_placed hf hs "self" tok
    have hlater := (declareParams_gives ps ((declare "self" tok).run s).2).1
    cases j with
    | zero =>
      obtain rfl : ((declare "self" tok).run s).1 = b := Option.some.inj hb
      exact hplaced.grow hlater.program
    | succ j =>
      have := declareParams_placed ps hframes hscopes j b hb
      rwa [Nat.add_comm] at this

theorem declaresAll_top {R : Region} : {bs : List BindingId} → {k l : Known} → {n : Nat} →
    DeclaresAll p R k bs l → (∀ j b, bs[j]? = some b → Placed p b (n + j)) →
    ∀ j, l.top j = ((if n ≤ j then bs[j - n]? else none).or (k.top j))
  | [], k, l, n, h, _, j => by
    obtain rfl : l = k := h
    simp
  | b :: bs, k, l, n, ⟨i, hdecl, hrest⟩, hplaced, j => by
    have hb : Placed p b n := by simpa using hplaced 0 b rfl
    have ih := declaresAll_top hrest (n := n + 1) (fun j c hc => by
      have := hplaced (j + 1) c (by simpa using hc)
      rwa [Nat.add_right_comm, Nat.add_assoc] ) j
    rw [ih, hdecl.top, Slots.add, hb.2.1, hb.2.2]
    rcases Nat.lt_trichotomy j n with hlt | rfl | hgt
    · simp [show ¬ n + 1 ≤ j by omega, show ¬ n ≤ j by omega, show j ≠ n by omega]
    · simp [show ¬ j + 1 ≤ j by omega]
    · obtain ⟨m, rfl⟩ : ∃ m, j = n + 1 + m := ⟨j - (n + 1), by omega⟩
      simp [show n ≤ n + 1 + m by omega, show n + 1 + m ≠ n by omega,
        show n + 1 + m - n = m + 1 by omega]

theorem declaresAll_fresh {R : Region} : {bs : List BindingId} → {k l : Known} →
    DeclaresAll p R k bs l → ∀ b ∈ bs, (p.binding b).storage = .frame →
    (p.binding b).index < R.size ∧ b ∉ R.free
  | b :: bs, k, l, ⟨i, hdecl, hrest⟩, c, hc, hs => by
    rcases List.mem_cons.mp hc with rfl | hc
    · exact ⟨(hdecl.fresh hs).1, (hdecl.fresh hs).2.2⟩
    · exact declaresAll_fresh hrest c hc hs

theorem declaresAll_count {R : Region} : {bs : List BindingId} → {k l : Known} →
    DeclaresAll p R k bs l → l.count = k.count
  | [], _, _, h => congrArg Known.count h
  | _ :: _, _, _, ⟨_, hdecl, hrest⟩ => (declaresAll_count hrest).trans hdecl.count

section

variable {α β γ : Type} {S : Program → Region → Slots → α → Prop}
  {D : α → List (FunDecl .resolved)} {S₁ : Program → Region → Slots → β → Prop}
  {D₁ : β → List (FunDecl .resolved)} {S₂ : Program → Region → Slots → γ → Prop}
  {D₂ : γ → List (FunDecl .resolved)} {m : Resolve α} {m₁ : Resolve β}

theorem Gives.map {g : α → γ} (h : Gives m (Keeps S D))
    (hS : ∀ p R σ a, S p R σ a → S₂ p R σ (g a)) (hD : ∀ a, D₂ (g a) = D a) :
    Gives (m >>= fun a => Pure.pure (g a)) (Keeps S₂ D₂) := by
  refine (h.bind fun a => Gives.pure (g a)).mono ?_
  rintro p R k c l ⟨a, i, ⟨hslots, hscopes, ha, hids⟩, rfl, rfl⟩
  exact ⟨hslots, hscopes, hS p R _ a ha, (hD a).symm ▸ hids⟩

theorem Gives.map₂ {g : α → β → γ} (h : Gives m (Keeps S D)) (h₁ : Gives m₁ (Keeps S₁ D₁))
    (hS : ∀ p R σ a b, S p R σ a → S₁ p R σ b → S₂ p R σ (g a b))
    (hD : ∀ a b, (D a ++ D₁ b).Perm (D₂ (g a b))) :
    Gives (m >>= fun a => m₁ >>= fun b => Pure.pure (g a b)) (Keeps S₂ D₂) := by
  refine (h.bind fun a => h₁.bind fun b => Gives.pure (g a b)).mono ?_
  rintro p R k c l ⟨a, i, ⟨hslots, hscopes, ha, hids⟩, b, j, ⟨hslots₁, hscopes₁, hb, hids₁⟩, rfl,
    rfl⟩
  have htop : i.top = k.top := by rw [Known.top, hslots, Known.top]
  exact ⟨hslots₁.trans hslots, hscopes₁.trans hscopes, hS p R _ a b ha (htop ▸ hb),
    (hids.append hids₁).perm (hD a b)⟩

end

theorem Gives.leaf {α : Type} {S : Program → Region → Slots → α → Prop}
    {D : α → List (FunDecl .resolved)} (a : α) (hS : ∀ p R σ, S p R σ a) (hD : D a = []) :
    Gives (Pure.pure a) (Keeps S D) := by
  refine (Gives.pure a).mono ?_
  rintro p R k b l ⟨rfl, rfl⟩
  exact ⟨rfl, rfl, hS p R _, hD ▸ .nil (Nat.le_refl _)⟩

def KeepsPattern (p : Program) (R : Region) (k : Known) (q : Pattern .resolved) (l : Known) : Prop :=
  l.top = k.top.afterPattern p q ∧ Scoped.pattern p R k.top q ∧
    Ids k.count l.count (Decls.pattern q)

def KeepsPatterns (p : Program) (R : Region) (k : Known) (qs : List (Pattern .resolved))
    (l : Known) : Prop :=
  l.top = k.top.afterPatterns p qs ∧ Scoped.patterns p R k.top qs ∧
    Ids k.count l.count (Decls.patterns qs)

def KeepsStmt (p : Program) (R : Region) (k : Known) (t : Stmt .resolved) (l : Known) : Prop :=
  l.top = k.top.afterStmt p t ∧ Scoped.stmt p R k.top t ∧ Ids k.count l.count (Decls.stmt t)

def KeepsStmts (p : Program) (R : Region) (k : Known) (ts : List (Stmt .resolved)) (l : Known) :
    Prop :=
  Scoped.stmts p R k.top ts ∧ Ids k.count l.count (Decls.stmts ts)

/-- What resolving a function leaves behind. `id` and `b` were given to it before. -/
structure KeepsFunc (d : FunDecl .parsed) (id : FunId) (b : Option BindingId) (p : Program)
    (R : Region) (k : Known) (t : FunDecl .resolved) (l : Known) : Prop where
  slots : l.slots = k.slots
  number : t.info.id = id
  binding : t.info.binding = b
  free : ∀ v ∈ t.info.free, k.top.Captures p R v
  outside : k.slots = [] → t.info.free = []
  body : (∃ f, p.funs[id]? = some f ∧ f.arity = (userFunction d).arity) → Scoped.func p t
  ids : Ids k.count l.count (Decls.block t.body)

theorem top_eq {k l : Known} (h : l.slots = k.slots) : l.top = k.top := by
  rw [Known.top, h, Known.top]

theorem GivesAt.and {α : Type} {s : State} {m : Resolve α}
    {P : Program → Region → Known → α → Known → Prop} {F : Program → α → Prop} (h : GivesAt s m P)
    (hF : ∀ p, (m.run s).2.program.Grows p → F p (m.run s).1) :
    GivesAt s m fun p R k a l => P p R k a l ∧ F p a := by
  refine ⟨h.1, ?_⟩
  intro p hp he k hk
  obtain ⟨l, hl, hext, hpost⟩ := h.2 p hp he k hk
  exact ⟨l, hl, hext, fun R hR => ⟨hpost R hR, hF p hp⟩⟩

theorem funcParts_gives (hasSelf : Bool) (tok : Token) (ps : List (Param .parsed))
    {ss : List (Stmt .parsed)} (h : Gives (stmts ss) KeepsStmts) (s : State) :
    GivesAt (inner s) (do
      let self ← if hasSelf then some <$> declare "self" tok else pure none
      let ps ← declareParams ps
      return (self, ps, ← stmts ss)) fun p R k a l => ∃ i,
        ((DeclaresAll p R k (partDecls (a.1, a.2.1)) i ∧
          (partDecls (a.1, a.2.1)).length = ps.length + if hasSelf then 1 else 0) ∧
        ∀ j b, (partDecls (a.1, a.2.1))[j]? = some b → Placed p b j) ∧
        KeepsStmts p R i a.2.2 l := by
  have hparts := (parts_gives hasSelf tok ps (inner s)).and
    (F := fun p a => ∀ j b, (partDecls a)[j]? = some b → Placed p b j) fun p hp j b hb =>
      (parts_placed hasSelf tok ps rfl (List.cons_ne_nil _ _) j b hb).grow hp
  have hstmts : ∀ a : Option BindingId × List (Param .resolved), Gives
      (do return (a.1, a.2, ← stmts ss)) fun p R k c l => (c.1, c.2.1) = a ∧
        KeepsStmts p R k c.2.2 l := by
    intro a
    refine (h.bind fun ts => Gives.pure (a.1, a.2, ts)).mono ?_
    rintro p R k c l ⟨ts, i, hts, rfl, rfl⟩
    exact ⟨rfl, hts⟩
  refine GivesAt.congr ?_ ((Gives.after hstmts hparts).mono ?_)
  · cases hasSelf <;> rfl
  · rintro p R k a l ⟨qs, i, hdecl, rfl, hts⟩
    exact ⟨i, hdecl, hts⟩

theorem func_gives (id : FunId) (b : Option BindingId) {tok btok close : Token} {nm : Name}
    {u : Unit} {hasSelf : Bool} {ps : List (Param .parsed)} {r : Option TypeExpr}
    {ss : List (Stmt .parsed)} (h : Gives (stmts ss) KeepsStmts) :
    Gives (func id b (.mk tok nm u hasSelf ps r (.mk u btok ss close)))
      (KeepsFunc (.mk tok nm u hasSelf ps r (.mk u btok ss close)) id b) := by
  rw [func]
  have hframe := fun s => withFrame_gives (funcParts_gives hasSelf tok ps h s)
  refine Gives.mono (Gives.bind hframe fun a => (onProgram_gives (fun q => ?_) (fun _ => rfl)
    (fun _ => rfl) (fun _ => ?_)).bind fun _ => Gives.pure _) ?_
  · exact q.modifyFun_grows id _ fun _ => rfl
  · simp [Program.modifyFun]
  · rintro p R k t l ⟨⟨⟨self, qs, ts⟩, f⟩, i, hf, -, j, rfl, rfl, rfl⟩
    obtain ⟨scs, m, ⟨n, ⟨⟨hdecl, hlen⟩, hplaced⟩, hscoped, hids⟩, hcount⟩ := hf.inside
    have hfresh := declaresAll_fresh hdecl
    have htop : n.top = fun j => (partDecls (self, qs))[j]? := by
      funext j
      have hj := declaresAll_top (n := 0) hdecl (by simpa using hplaced) j
      simpa [Known.enter, Known.top] using hj
    refine ⟨hf.slots, rfl, rfl, hf.free, hf.outside, ?_, ?_⟩
    · rintro ⟨g, hg, harity⟩
      rw [htop] at hscoped
      refine ⟨⟨?_, ?_, hf.distinct, g, hg, ?_⟩, hscoped⟩
      · intro j c hc
        have hc' := hplaced j c hc
        exact ⟨hc'.2.1, hc'.2.2, (hfresh c (List.mem_of_getElem? hc) hc'.2.1).2⟩
      · cases hn : (partDecls (self, qs)).length with
        | zero => exact Nat.le_trans (Nat.le_of_eq hn) (Nat.zero_le _)
        | succ n =>
          have hlast : n < (partDecls (self, qs)).length := by omega
          have hc := hplaced n _ (List.getElem?_eq_getElem hlast)
          have hroom := (hfresh _ (List.getElem_mem hlast) hc.2.1).1
          rw [hc.2.2] at hroom
          exact Nat.le_trans (Nat.le_of_eq hn) hroom
      · refine harity.trans (Eq.trans ?_ hlen.symm)
        simp [UserFunction.arity, userFunction, FunDecl.params, FunDecl.hasSelf]
    · have hn := declaresAll_count hdecl
      rw [hn] at hids
      exact hcount ▸ hids

theorem memberType_gives {left : Expr .parsed} {field : Name} {m : Resolve (Expr .resolved)}
    (h : Gives m (Keeps Scoped.expr Decls.expr)) :
    Gives (do match ← memberType? left field with
      | some (d, tok) => readType d tok
      | none => m) (Keeps Scoped.expr Decls.expr) := by
  intro s
  show GivesAt s (match left.dotted?.bind fun x =>
      (s.program.type? (".".intercalate (x.2 ++ [field.text]))).map (·, x.1) with
    | some (d, tok) => readType d tok
    | none => m) (Keeps Scoped.expr Decls.expr)
  split
  case h_1 d tok hd =>
    obtain ⟨⟨t, path⟩, -, hpath⟩ := Option.bind_eq_some_iff.mp hd
    obtain ⟨e, he, heq⟩ := Option.map_eq_some_iff.mp hpath
    obtain rfl : e = d := congrArg Prod.fst heq
    exact readType_gives (TypeTable.mem_of_byName? he) tok
  case h_2 => exact h s

theorem add_eq_none {σ : Slots} {b : BindingId} {j : Nat} (h : σ.add p b j = none) : σ j = none := by
  rw [Slots.add] at h
  split at h
  · cases h
  · exact h

theorem fresh_of_add {R : Region} {σ : Slots} {a b : BindingId} (h : (σ.add p a).Fresh p R b) :
    σ.Fresh p R b := fun hs => ⟨(h hs).1, add_eq_none (h hs).2.1, (h hs).2.2⟩

theorem add_ne {R : Region} {σ : Slots} {a b : BindingId} (h : (σ.add p a).Fresh p R b)
    (ha : (p.binding a).storage = .frame) (hb : (p.binding b).storage = .frame) :
    (p.binding b).index ≠ (p.binding a).index := by
  intro heq
  have hnone := (h hb).2.1
  rw [Slots.add, if_pos ⟨ha, heq⟩] at hnone
  cases hnone

theorem fresh_swap {R : Region} {σ : Slots} {a b : BindingId} (ha : σ.Fresh p R a)
    (hb : (σ.add p a).Fresh p R b) : (σ.add p b).Fresh p R a := by
  intro hs
  refine ⟨(ha hs).1, ?_, (ha hs).2.2⟩
  rw [Slots.add, if_neg]
  · exact (ha hs).2.1
  · rintro ⟨hbs, heq⟩
    exact add_ne hb hs hbs heq.symm

theorem add_swap {R : Region} {σ : Slots} {a b : BindingId} (hb : (σ.add p a).Fresh p R b) :
    (σ.add p a).add p b = (σ.add p b).add p a := by
  funext j
  simp only [Slots.add]
  split
  case isTrue hj =>
    split
    case isTrue hj' => exact absurd (hj.2.symm.trans hj'.2) (add_ne hb hj'.1 hj.1)
    case isFalse => rfl
  case isFalse => rfl

/-- The bindings of a loop, however they were declared. -/
structure DeclaresLoop (p : Program) (R : Region) (k : Known) (l : LoopSlots) (m : Known) : Prop where
  index : k.top.Fresh p R l.index
  limit : (k.top.add p l.index).Fresh p R l.limit
  item : ((k.top.add p l.index).add p l.limit).Fresh p R l.item
  top : m.top = k.top.inLoop p l
  count : m.count = k.count
  place : (p.binding l.index).storage = .frame → k.next ≤ (p.binding l.index).index

theorem loopSlots_gives (isRange : Bool) (name : Name) (tok : Token) :
    Gives (do
      let (index, limit) ← if isRange then do
          let index ← declareHidden "$index" tok
          pure (index, ← declareHidden "$end" tok)
        else do
          let array ← declareHidden "$array" tok
          pure (← declareHidden "$index" tok, array)
      let item ← declare name.text name.token
      return (⟨limit, index, item⟩ : LoopSlots)) DeclaresLoop := by
  cases isRange with
  | true =>
    refine (((declareHidden_gives "$index" tok).bind fun index =>
      (declareHidden_gives "$end" tok).bind fun limit => Gives.pure (index, limit)).bind
        fun a => (declare_gives name.text name.token).bind fun item =>
          Gives.pure (LoopSlots.mk a.2 a.1 item)).mono ?_
    rintro p R k a l ⟨_, i, ⟨index, h, ⟨hindex, -⟩, limit, _, ⟨hlimit, -⟩, rfl, rfl⟩, item, m, hitem,
      rfl, rfl⟩
    refine ⟨hindex.fresh, hindex.top ▸ hlimit.fresh, ?_, ?_, ?_, hindex.place⟩
    · have := hitem.fresh
      rwa [hlimit.top, hindex.top] at this
    · rw [hitem.top, hlimit.top, hindex.top]
      rfl
    · rw [hitem.count, hlimit.count, hindex.count]
  | false =>
    refine (((declareHidden_gives "$array" tok).bind fun array =>
      (declareHidden_gives "$index" tok).bind fun index => Gives.pure (index, array)).bind
        fun a => (declare_gives name.text name.token).bind fun item =>
          Gives.pure (LoopSlots.mk a.2 a.1 item)).mono ?_
    rintro p R k a l ⟨_, i, ⟨limit, h, ⟨hlimit, -⟩, index, _, ⟨hindex, -⟩, rfl, rfl⟩, item, m, hitem,
      rfl, rfl⟩
    have hfresh := hindex.fresh
    rw [hlimit.top] at hfresh
    refine ⟨fresh_of_add hfresh, fresh_swap hlimit.fresh hfresh, ?_, ?_, ?_,
      fun hs => Nat.le_trans hlimit.next (hindex.place hs)⟩
    · have := hitem.fresh
      rwa [hindex.top, hlimit.top, add_swap hfresh] at this
    · rw [hitem.top, hindex.top, hlimit.top, add_swap hfresh]
      rfl
    · rw [hitem.count, hindex.count, hlimit.count]

theorem Gives.stmt {m : Resolve (Stmt .resolved)} (h : Gives m (Keeps Scoped.stmt Decls.stmt))
    (hm : ∀ s p (σ : Slots), σ.afterStmt p (m.run s).1 = σ) : Gives m KeepsStmt := by
  refine fun s => ⟨(h s).1, ?_⟩
  intro p hp he k hk
  obtain ⟨l, hl, hext, hpost⟩ := (h s).2 p hp he k hk
  refine ⟨l, hl, hext, fun R hR => ?_⟩
  obtain ⟨hslots, -, hscoped, hids⟩ := hpost R hR
  exact ⟨(top_eq hslots).trans (hm s p k.top).symm, hscoped, hids⟩

theorem Keeps.bound {R : Region} {k i l : Known} {e : Expr .resolved} {b : BindingId}
    (he : Keeps Scoped.expr Decls.expr p R k e i) (hb : Declares p R i b l) (tok : Token) (nm : Name)
    (type : Option TypeExpr) : KeepsStmt p R k (.bind tok nm b type e) l := by
  obtain ⟨hslots, -, hscoped, hids⟩ := he
  have htop := hb.top
  have hfresh := hb.fresh
  rw [top_eq hslots] at htop hfresh
  exact ⟨htop, ⟨hscoped, hfresh⟩, hb.count ▸ hids⟩

theorem KeepsFunc.stmt {R : Region} {k i j l : Known} {d : FunDecl .parsed} {t : FunDecl .resolved}
    {id : FunId} {b : BindingId} (hb : Declares p R k b i) (hid : Numbers d p i id j)
    (h : KeepsFunc d id (some b) p R j t l) : KeepsStmt p R k (.func t) l := by
  have htop : j.top = k.top.add p b := (top_eq hid.slots).trans hb.top
  refine ⟨?_, ⟨?_, h.body hid.listed⟩, ?_⟩
  · rw [top_eq h.slots, htop, Slots.afterStmt, h.binding]
  · rw [Slots.Names, h.binding]
    refine ⟨hb.fresh, fun hglobal => h.outside ?_, fun v hv => htop ▸ h.free v hv⟩
    rw [hid.slots]
    exact hb.slots (hb.outside hglobal)
  · have hcount : j.count = k.count + 1 := by rw [hid.count, hb.count]
    rw [Decls.stmt, Decls.func_eq]
    refine Ids.cons ?_ (hcount ▸ h.ids)
    rw [h.number, hid.number, hb.count]

theorem KeepsStmts.cons {R : Region} {k i l : Known} {t : Stmt .resolved}
    {ts : List (Stmt .resolved)} (h : KeepsStmt p R k t i) (hs : KeepsStmts p R i ts l) :
    KeepsStmts p R k (t :: ts) l :=
  ⟨⟨h.2.1, h.1 ▸ hs.1⟩, h.2.2.append hs.2⟩

theorem Gives.ofFailure {α : Type} {code : Diagnostic.Code} {tok : Token} {msg : String} (a : α)
    (Post : Program → Region → Known → α → Known → Prop) :
    Gives (do Resolve.report code tok msg; return a) Post := fun _ => .ofFailure a Post

/-- What resolving the target of an assignment leaves behind; its value is resolved before. -/
def KeepsTarget (v : Expr .resolved) (tok : Token) (p : Program) (R : Region) (k : Known)
    (a : Expr .resolved) (l : Known) : Prop :=
  ∃ e, a = Expr.assign () tok e v ∧ Keeps Scoped.expr Decls.expr p R k e l

theorem KeepsTarget.assign {R : Region} {k i l : Known} {v a : Expr .resolved} {tok : Token}
    (hv : Keeps Scoped.expr Decls.expr p R k v i) (ha : KeepsTarget v tok p R i a l) :
    Keeps Scoped.expr Decls.expr p R k a l := by
  obtain ⟨e, rfl, hslots, hscopes, he, hids⟩ := ha
  rw [top_eq hv.1] at he
  exact ⟨hslots.trans hv.1, hscopes.trans hv.2.1, ⟨he, hv.2.2.1⟩,
    (hv.2.2.2.append hids).perm List.perm_append_comm⟩

theorem target_gives {m : Resolve (Expr .resolved)} (h : Gives m (Keeps Scoped.expr Decls.expr))
    (isMember : Bool) (v : Expr .resolved) (tok t : Token) (msg : String) :
    Gives (do
      let e ← m
      if isMember && !e.isMember then report .badBinding tok msg
      return .assign () t e v) (KeepsTarget v t) := by
  have htest : ∀ e : Expr .resolved, Gives (do
      if isMember && !e.isMember then report .badBinding tok msg
      return .assign () t e v) fun _ _ k a l => a = Expr.assign () t e v ∧ l = k := by
    intro e s
    dsimp only
    split
    · exact .ofFailure _ _
    · exact Gives.pure _ s
  refine (h.bind htest).mono ?_
  rintro p R k a l ⟨e, i, he, rfl, rfl⟩
  exact ⟨e, rfl, he⟩

theorem Gives.tight {α : Type} {m : Resolve α} {P : Program → Region → Known → α → Known → Prop}
    (h : Gives m P) :
    Gives m fun p R k a l => P p R k a l ∧ P p ⟨R.free, l.next⟩ k a l := by
  refine fun s => ⟨(h s).1, ?_⟩
  intro p hp he k hk
  obtain ⟨l, hl, hext, hpost⟩ := (h s).2 p hp he k hk
  refine ⟨l, hl, hext, fun R hR => ⟨hpost R hR, hpost _ ?_⟩⟩
  have hnext := hl.next
  cases hf : (m.run s).2.frames with
  | nil => trivial
  | cons f fs =>
    rw [hf] at hR hnext
    exact ⟨hR.1, Nat.le_of_eq hnext.symm, hR.2.2⟩

theorem scoped_add {R : Region} {σ : Slots} {b : BindingId} {n : Nat} {e : Expr .resolved}
    (hb : σ.Fresh p R b) (hplace : (p.binding b).storage = .frame → n ≤ (p.binding b).index)
    (he : Scoped.expr p R σ e) (hn : Scoped.expr p ⟨R.free, n⟩ σ e) :
    Scoped.expr p R (σ.add p b) e := by
  cases hs : (p.binding b).storage with
  | global =>
    rw [add_of_global hs]
    exact he
  | frame =>
    obtain ⟨hroom, hnone, -⟩ := hb hs
    have hle := hplace hs
    have hwidens : Slots.Widens ⟨R.free, n⟩ R σ (σ.add p b) := by
      refine ⟨rfl, Nat.le_of_lt (Nat.lt_of_le_of_lt hle hroom), ?_, ?_⟩
      · intro j c hc
        rw [Slots.add, if_neg, hc]
        rintro ⟨-, rfl⟩
        cases hnone.symm.trans hc
      · intro j hj hc
        rw [Slots.add, if_neg, hc]
        rintro ⟨-, rfl⟩
        exact absurd hle (Nat.not_le_of_lt hj)
    exact Scoped.expr_widen e hwidens hn

theorem loopBody_gives {m : Resolve (Block .resolved)} (h : Gives m (Keeps Scoped.block Decls.block))
    (tok : Token) (nm : Name) (series : Expr .resolved) :
    Gives (do
      let (index, limit) ← if series.rangeBounds?.isSome then do
          let index ← declareHidden "$index" tok
          pure (index, ← declareHidden "$end" tok)
        else do
          let array ← declareHidden "$array" tok
          pure (← declareHidden "$index" tok, array)
      let item ← declare nm.text nm.token
      return .each tok nm ⟨limit, index, item⟩ series (← m)) fun p R k t l => ∃ slots b i,
        t = Stmt.each tok nm slots series b ∧ DeclaresLoop p R k slots i ∧
          Keeps Scoped.block Decls.block p R i b l := by
  have hall := (loopSlots_gives series.rangeBounds?.isSome nm tok).bind fun slots => h.bind fun b =>
    Gives.pure (Stmt.each tok nm slots series b : Stmt .resolved)
  intro s
  refine GivesAt.congr ?_ ((hall s).mono ?_)
  · cases series.rangeBounds?.isSome <;> rfl
  · rintro p R k t l ⟨slots, i, hloop, b, j, hb, rfl, rfl⟩
    exact ⟨slots, b, i, rfl, hloop, hb⟩

mutual

theorem expr_gives : (e : Expr .parsed) → Gives (expr e) (Keeps Scoped.expr Decls.expr)
  | .name _ t text _ => by
    rw [expr]
    exact readName_gives t text
  | .int .. | .float .. | .string .. | .char .. | .bool .. => by
    rw [expr]
    exact Gives.leaf _ (fun _ _ _ => trivial) rfl
  | .interpolated _ _ es | .array _ _ es => by
    rw [expr]
    exact (exprs_gives es).map (fun _ _ _ _ h => h) fun _ => rfl
  | .unary _ _ _ e | .tryUnwrap _ _ e => by
    rw [expr]
    exact (expr_gives e).map (fun _ _ _ _ h => h) fun _ => rfl
  | .binary _ _ _ l r | .index _ _ l r | .range _ _ l r => by
    rw [expr]
    exact (expr_gives l).map₂ (expr_gives r) (fun _ _ _ _ _ => .intro) fun _ _ => .refl _
  | .assign _ t target value => by
    rw [expr]
    have htarget : ∀ v, Gives (match target.nameView? with
        | some (tok, name) => (do return .assign () t (← assignName tok name) v : Resolve (Expr .resolved))
        | none => do
          let e ← expr target
          if target.isMember && !e.isMember then
            report .badBinding target.token "cannot assign to a type"
          return .assign () t e v) (KeepsTarget v t) := by
      intro v
      split
      case h_1 tok name _ =>
        refine ((assignName_gives tok name).bind fun e => Gives.pure (Expr.assign () t e v)).mono ?_
        rintro p R k a l ⟨e, i, he, rfl, rfl⟩
        exact ⟨e, rfl, he⟩
      case h_2 => exact target_gives (expr_gives target) _ v _ t _
    refine ((expr_gives value).bind htarget).mono ?_
    rintro p R k a l ⟨v, i, hv, ha⟩
    exact ha.assign hv
  | .call _ _ _ f es => by
    rw [expr]
    exact (expr_gives f).map₂ (exprs_gives es) (fun _ _ _ _ _ => .intro) fun _ _ => .refl _
  | .member _ _ left field => by
    rw [expr]
    exact memberType_gives ((expr_gives left).map (fun _ _ _ _ h => h) fun _ => rfl)
  | .new _ _ _ _ fs => by
    rw [expr]
    exact (inits_gives fs).map (fun _ _ _ _ h => h) fun _ => rfl
  | .block b => by
    rw [expr]
    exact (block_gives b).map (fun _ _ _ _ h => h) fun _ => rfl
  | .cond _ t test body alt => by
    rw [expr]
    refine ((expr_gives test).bind fun test => (block_gives body).bind fun body =>
      (option_gives alt).bind fun alt => Gives.pure (Expr.cond () t test body alt)).mono ?_
    rintro p R k e l ⟨test, i, ⟨hi, hsi, htest, hids⟩, body, j, ⟨hj, hsj, hbody, hids'⟩, alt, m,
      ⟨hm, hsm, halt, hids''⟩, rfl, rfl⟩
    rw [top_eq hi] at hbody
    rw [top_eq hj, top_eq hi] at halt
    exact ⟨hm.trans (hj.trans hi), hsm.trans (hsj.trans hsi), ⟨htest, hbody, halt⟩,
      hids.append (hids'.append hids'')⟩
  | .cases _ t subject _ as => by
    rw [expr]
    have hall := (expr_gives subject).bind fun subject => (declareHidden_gives "$match" t).bind
      fun b => (arms_gives as).bind fun as => Gives.pure (Expr.cases () t subject b as)
    refine (hall.forget ?_).mono ?_
    · rintro p R k e l ⟨subject, i, ⟨-, hi, -⟩, b, j, ⟨-, hj⟩, as, m, ⟨-, hm, -⟩, rfl, rfl⟩
      exact hm.trans (hj.trans hi)
    · rintro p R k e l ⟨n, ⟨subject, i, ⟨hi, -, hsubject, hids⟩, b, j, ⟨hdecl, -⟩, as, m,
        ⟨-, -, has, hids'⟩, rfl, rfl⟩, hslots, hscopes, hcount⟩
      have hfresh := hdecl.fresh
      rw [hdecl.top] at has
      rw [top_eq hi] at has hfresh
      rw [hdecl.count] at hids'
      exact ⟨hslots, hscopes, ⟨hsubject, hfresh, has⟩, hcount ▸ hids.append hids'⟩

theorem exprs_gives : (es : List (Expr .parsed)) →
    Gives (exprs es) (Keeps Scoped.exprs Decls.exprs)
  | [] => by
    rw [exprs]
    exact Gives.leaf _ (fun _ _ _ => trivial) rfl
  | e :: es => by
    rw [exprs]
    exact (expr_gives e).map₂ (exprs_gives es) (fun _ _ _ _ _ => .intro) fun _ _ => .refl _

theorem option_gives : (e : Option (Expr .parsed)) →
    Gives (option e) (Keeps Scoped.option Decls.option)
  | none => by
    rw [option]
    exact Gives.leaf _ (fun _ _ _ => trivial) rfl
  | some e => by
    rw [option]
    exact (expr_gives e).map (fun _ _ _ _ h => h) fun _ => rfl

theorem inits_gives : (fs : List (FieldInit .parsed)) →
    Gives (inits fs) (Keeps Scoped.inits Decls.inits)
  | [] => by
    rw [inits]
    exact Gives.leaf _ (fun _ _ _ => trivial) rfl
  | .mk _ _ e :: fs => by
    rw [inits]
    exact (expr_gives e).map₂ (inits_gives fs) (fun _ _ _ _ _ => .intro) fun _ _ => .refl _

theorem arms_gives : (as : List (Arm .parsed)) → Gives (arms as) (Keeps Scoped.arms Decls.arms)
  | [] => by
    rw [arms]
    exact Gives.leaf _ (fun _ _ _ => trivial) rfl
  | .mk t q e :: as => by
    rw [arms]
    refine ((withScope_gives .block ((pattern_gives q).bind fun q => (expr_gives e).bind fun e =>
      Gives.pure (Arm.mk t q e))).bind fun a => (arms_gives as).bind fun as =>
        Gives.pure (a :: as)).mono ?_
    rintro p R k a l ⟨_, i, ⟨scs, m, ⟨q, n, ⟨htop, hq, hids⟩, e, o, ⟨-, -, he, hids'⟩, rfl, rfl⟩, hi,
      hsi, hcount⟩, as, j, ⟨hj, hsj, has, hids''⟩, rfl, rfl⟩
    rw [htop] at he
    rw [top_eq hi] at has
    rw [hcount] at hids''
    exact ⟨hj.trans hi, hsj.trans hsi, ⟨hq, he, has⟩, hids.append (hids'.append hids'')⟩

theorem pattern_gives : (q : Pattern .parsed) → Gives (pattern q) KeepsPattern
  | .wildcard t => by
    rw [pattern]
    refine (Gives.pure (Pattern.wildcard t)).mono ?_
    rintro p R k q l ⟨rfl, rfl⟩
    exact ⟨rfl, trivial, .nil (Nat.le_refl _)⟩
  | .literal t e => by
    rw [pattern]
    refine ((expr_gives e).bind fun e => Gives.pure (Pattern.literal t e)).mono ?_
    rintro p R k q l ⟨e, i, ⟨hi, -, he, hids⟩, rfl, rfl⟩
    exact ⟨top_eq hi, he, hids⟩
  | .bind nm _ => by
    rw [pattern]
    refine ((declare_gives nm.text nm.token).bind fun b =>
      Gives.pure (Pattern.bind nm b : Pattern .resolved)).mono ?_
    rintro p R k q l ⟨b, i, hdecl, rfl, rfl⟩
    exact ⟨hdecl.top, hdecl.fresh, .nil (Nat.le_of_eq hdecl.count.symm)⟩
  | .ctor t _ path qs => by
    rw [pattern]
    refine ((patterns_gives qs).bind fun qs => Gives.pure (Pattern.ctor t () path qs)).mono ?_
    rintro p R k q l ⟨qs, i, hqs, rfl, rfl⟩
    exact hqs

theorem patterns_gives : (qs : List (Pattern .parsed)) → Gives (patterns qs) KeepsPatterns
  | [] => by
    rw [patterns]
    refine (Gives.pure []).mono ?_
    rintro p R k q l ⟨rfl, rfl⟩
    exact ⟨rfl, trivial, .nil (Nat.le_refl _)⟩
  | q :: qs => by
    rw [patterns]
    refine ((pattern_gives q).bind fun q => (patterns_gives qs).bind fun qs =>
      Gives.pure (q :: qs)).mono ?_
    rintro p R k a l ⟨q, i, ⟨htop, hq, hids⟩, qs, j, ⟨htop', hqs, hids'⟩, rfl, rfl⟩
    rw [htop] at htop' hqs
    exact ⟨htop', ⟨hq, hqs⟩, hids.append hids'⟩

theorem block_gives : (b : Block .parsed) → Gives (block b) (Keeps Scoped.block Decls.block)
  | .mk _ t ss close => by
    rw [block]
    refine ((withScope_gives .block (stmts_gives ss)).bind fun ss =>
      Gives.pure (Block.mk () t ss close)).mono ?_
    rintro p R k b l ⟨ss, i, ⟨scs, m, ⟨hss, hids⟩, hi, hsi, hcount⟩, rfl, rfl⟩
    exact ⟨hi, hsi, hss, hcount ▸ hids⟩

theorem stmts_gives : (ss : List (Stmt .parsed)) → Gives (stmts ss) KeepsStmts
  | [] => by
    rw [stmts]
    refine (Gives.pure []).mono ?_
    rintro p R k ss l ⟨rfl, rfl⟩
    exact ⟨trivial, .nil (Nat.le_refl _)⟩
  | s :: ss => by
    rw [stmts]
    refine ((stmt_gives s).bind fun s => (stmts_gives ss).bind fun ss =>
      Gives.pure (s :: ss)).mono ?_
    rintro p R k a l ⟨s, i, hs, ss, j, hss, rfl, rfl⟩
    exact KeepsStmts.cons hs hss

theorem stmt_gives : (s : Stmt .parsed) → Gives (stmt s) KeepsStmt
  | .expr t e => by
    rw [stmt]
    exact Gives.stmt ((expr_gives e).map (fun _ _ _ _ h => h) fun _ => rfl) fun _ _ _ => rfl
  | .block b => by
    rw [stmt]
    exact Gives.stmt ((block_gives b).map (fun _ _ _ _ h => h) fun _ => rfl) fun _ _ _ => rfl
  | .bind t nm _ type e => by
    rw [stmt]
    refine ((expr_gives e).bind fun e => (declare_gives nm.text nm.token).bind fun b =>
      Gives.pure (Stmt.bind t nm b type e : Stmt .resolved)).mono ?_
    rintro p R k s l ⟨e, i, he, b, j, hb, rfl, rfl⟩
    exact he.bound hb t nm type
  | .ret t e => by
    rw [stmt]
    exact Gives.stmt ((option_gives e).map (fun _ _ _ _ h => h) fun _ => rfl) fun _ _ _ => rfl
  | .loop t test b => by
    rw [stmt]
    exact Gives.stmt ((expr_gives test).map₂ (block_gives b) (fun _ _ _ _ _ => .intro)
      fun _ _ => .refl _) fun _ _ _ => rfl
  | .each t nm _ series b => by
    rw [stmt]
    refine ((expr_gives series).tight.bind fun series =>
      withScope_gives .block (loopBody_gives (block_gives b) t nm series)).mono ?_
    rintro p R k s l ⟨series, i, ⟨⟨hi, -, hseries, hids⟩, -, -, hbelow, -⟩, scs, m, ⟨slots, b, j, rfl, hloop,
      hb⟩, hl, -, hcount⟩
    obtain ⟨hindex, hlimit, hitem, htop, hj, hplace⟩ := hloop
    obtain ⟨-, -, hblock, hids'⟩ := hb
    have hk : Known.top { i with scopes := scs } = k.top := top_eq (k := k) hi
    rw [hk] at hindex hlimit hitem htop
    rw [htop] at hblock
    rw [hj, ← hcount] at hids'
    exact ⟨(top_eq hl).trans (top_eq hi), ⟨hseries, scoped_add hindex hplace hseries hbelow,
      ⟨hindex, hlimit, hitem⟩, hblock⟩, hids.append hids'⟩
  | .leave t | .next t => by
    rw [stmt]
    exact Gives.stmt (Gives.leaf _ (fun _ _ _ => trivial) rfl) fun _ _ _ => rfl
  | .func (.mk t nm u hasSelf ps r (.mk u' bt ss close)) => by
    rw [stmt]
    refine ((declareNested_gives _).bind fun a => (func_gives a.1 (some a.2)
      (stmts_gives ss)).bind fun d => Gives.pure (Stmt.func d : Stmt .resolved)).mono ?_
    rintro p R k s l ⟨⟨id, b⟩, j, ⟨i, hb, hid⟩, d, m, hd, rfl, rfl⟩
    exact hd.stmt hb hid
  | .impl t nm _ => by
    rw [stmt]
    exact .ofFailure _ _
  | .record .. | .union .. | .use .. => by
    rw [stmt]
    exact .ofFailure _ _

end

end Scripting.Resolve
