import Scripting.Proofs.Scope.Basic
import Scripting.Proofs.Scope.Decls

/-!
# Variables that functions capture

`Items` lists what the code of a function does with names itself, without the code of the functions
inside it. `FunDecl.Threads` says that what a function and the functions inside it capture fits
together: every capture comes from the function around, from a slot of its own or from what it
captures itself.
-/

namespace Scripting

/-- What code does with names. -/
inductive Item where
  | uses (s : Slot)
  | declares (b : BindingId)
  | makes (info : FunSlots)

variable {N C T W : Type}

namespace Items

mutual

def expr : Expr (.slotted N C T W) → List Item
  | .name _ _ _ s => [.uses s]
  | .int .. | .float .. | .string .. | .char .. | .bool .. => []
  | .interpolated _ _ es | .array _ _ es => exprs es
  | .unary _ _ _ e | .tryUnwrap _ _ e | .member _ _ e _ => expr e
  | .binary _ _ _ l r | .assign _ _ l r | .index _ _ l r | .range _ _ l r => expr l ++ expr r
  | .call _ _ _ f es => expr f ++ exprs es
  | .new _ _ _ _ fs => inits fs
  | .block b => block b
  | .cond _ _ test body alt => expr test ++ (block body ++ option alt)
  | .cases _ _ subject b as => expr subject ++ .declares b :: arms as

def exprs : List (Expr (.slotted N C T W)) → List Item
  | [] => []
  | e :: es => expr e ++ exprs es

def option : Option (Expr (.slotted N C T W)) → List Item
  | none => []
  | some e => expr e

def inits : List (FieldInit (.slotted N C T W)) → List Item
  | [] => []
  | .mk _ _ e :: fs => expr e ++ inits fs

def arms : List (Arm (.slotted N C T W)) → List Item
  | [] => []
  | .mk _ q e :: as => pattern q ++ (expr e ++ arms as)

def pattern : Pattern (.slotted N C T W) → List Item
  | .wildcard _ => []
  | .bind _ b => [.declares b]
  | .literal _ e => expr e
  | .ctor _ _ _ qs => patterns qs

def patterns : List (Pattern (.slotted N C T W)) → List Item
  | [] => []
  | q :: qs => pattern q ++ patterns qs

def block : Block (.slotted N C T W) → List Item
  | .mk _ _ ss _ => stmts ss

def stmts : List (Stmt (.slotted N C T W)) → List Item
  | [] => []
  | s :: ss => stmt s ++ stmts ss

def stmt : Stmt (.slotted N C T W) → List Item
  | .expr _ e => expr e
  | .bind _ _ b _ e => expr e ++ [.declares b]
  | .block b => block b
  | .ret _ e => option e
  | .loop _ e b => expr e ++ block b
  | .each _ _ l e b =>
    expr e ++ .declares l.index :: .declares l.limit :: .declares l.item :: block b
  | .func d => d.info.binding.toList.map .declares ++ [.makes d.info]
  | .impl _ _ ds => ds.map fun d => .makes d.info
  | .leave _ | .next _ | .record .. | .union .. | .use .. => []

end

def declared (is : List Item) : List BindingId := is.filterMap fun
  | .declares b => some b
  | _ => none

theorem mem_declared {is : List Item} {b : BindingId} (h : .declares b ∈ is) : b ∈ declared is :=
  List.mem_filterMap.mpr ⟨_, h, rfl⟩

end Items

variable (p : Program)

/-- What code relies on in a function that declares the variables `own`: a captured variable that it
uses is the one that the function captures there, a variable of its frame has a slot, and a closure
takes each of its variables from the slot that the variable has, or from what the function captures. -/
def Item.Threaded (R : Region) (own : List BindingId) : Item → Prop
  | .uses s => s.place = .free → R.free[s.index]? = some s.binding
  | .declares b => (p.binding b).storage = .frame → (p.binding b).index < R.size
  | .makes info => ∀ v ∈ info.free,
      if v.fromFrame then v.binding ∈ own ∧ v.index = (p.binding v.binding).index
      else R.free[v.index]? = some v.binding

/-- The variables that a function declares. -/
def FunDecl.own (d : FunDecl (.slotted N C T W)) : List BindingId :=
  d.paramDecls ++ Items.declared (Items.block d.body)

/-- What a function captures. -/
structure FunDecl.Threads (d : FunDecl (.slotted N C T W)) : Prop where
  distinct : (d.info.free.map (·.binding)).Nodup
  marked : ∀ v ∈ d.info.free, (p.binding v.binding).captured = true
  items : ∀ i ∈ Items.block d.body, i.Threaded p d.region d.own

/-- Whether a name that code uses is found where its binding is: a global in the slot of the global,
and a variable of the frame in its slot there. What code declares in the frame is not captured from
outside. -/
def Item.Placed (R : Region) (own : List BindingId) : Item → Prop
  | .uses s => match s.place with
    | .global => (p.binding s.binding).storage = .global ∧ (p.binding s.binding).index = s.index
    | .frame => s.binding ∈ own ∧ (p.binding s.binding).index = s.index
    | .free => True
  | .declares b => (p.binding b).storage = .frame → b ∉ R.free
  | .makes _ => True

def Items.Made (is : List Item) (ds : List (FunDecl (.slotted N C T W))) : Prop :=
  ∀ info, .makes info ∈ is → ∃ d ∈ ds, d.info = info

theorem Items.Made.append {is js : List Item} {ds es : List (FunDecl (.slotted N C T W))}
    (h : Made is ds) (k : Made js es) : Made (is ++ js) (ds ++ es) := by
  intro info hinfo
  rcases List.mem_append.mp hinfo with hinfo | hinfo
  · obtain ⟨d, hd, hsame⟩ := h info hinfo
    exact ⟨d, List.mem_append_left _ hd, hsame⟩
  · obtain ⟨d, hd, hsame⟩ := k info hinfo
    exact ⟨d, List.mem_append_right _ hd, hsame⟩

theorem Items.Made.cons {i : Item} {is : List Item} {ds : List (FunDecl (.slotted N C T W))}
    (hi : ∀ info, i ≠ .makes info) (h : Made is ds) : Made (i :: is) ds := by
  intro info hinfo
  rcases List.mem_cons.mp hinfo with hsame | hinfo
  · exact absurd hsame.symm (hi info)
  · exact h info hinfo

/-- Whether a function finds its variables, and the functions that it makes closures of are inside it. -/
structure FunDecl.Places (d : FunDecl (.slotted N C T W)) : Prop where
  items : ∀ i ∈ Items.block d.body, i.Placed p d.region d.own
  made : Items.Made (Items.block d.body) (Decls.block d.body)

namespace Threads

variable {p}

section

variable {R : Region} {own : List BindingId}

def Held (p : Program) (own : List BindingId) (σ : Slots) : Prop :=
  ∀ j b, σ j = some b → b ∈ own ∧ (p.binding b).index = j

/-- Whether all variables of the frame that are declared count as declared by the function. -/
def Owns (p : Program) (own : List BindingId) (is : List Item) : Prop :=
  ∀ b, .declares b ∈ is → (p.binding b).storage = .frame → b ∈ own

/-- What is shown of a tree, by its items and the functions inside it. -/
structure Sound (p : Program) (R : Region) (own : List BindingId) (is : List Item)
    (ds : List (FunDecl (.slotted N C T W))) : Prop where
  items : ∀ i ∈ is, i.Threaded p R own ∧ i.Placed p R own
  decls : ∀ d ∈ ds, d.Threads p ∧ d.Places p
  made : Items.Made is ds

theorem Held.add {σ : Slots} (h : Held p own σ) {b : BindingId}
    (hb : (p.binding b).storage = .frame → b ∈ own) :
    Held p own (σ.add p b) := by
  intro j c hc
  rw [Slots.add] at hc
  split at hc
  · rename_i hj
    obtain rfl := Option.some.inj hc
    exact ⟨hb hj.1, hj.2.symm⟩
  · exact h j c hc

theorem Owns.left {is js : List Item} (h : Owns p own (is ++ js)) : Owns p own is :=
  fun b hb => h b (List.mem_append_left _ hb)

theorem Owns.right {is js : List Item} (h : Owns p own (is ++ js)) : Owns p own js :=
  fun b hb => h b (List.mem_append_right _ hb)

theorem Owns.head {is : List Item} {b : BindingId} (h : Owns p own (.declares b :: is)) :
    (p.binding b).storage = .frame → b ∈ own :=
  h b List.mem_cons_self

theorem Owns.tail {is : List Item} {i : Item} (h : Owns p own (i :: is)) : Owns p own is :=
  fun b hb => h b (List.mem_cons_of_mem _ hb)

theorem Sound.nil : Sound p R own [] ([] : List (FunDecl (.slotted N C T W))) :=
  ⟨nofun, nofun, nofun⟩

theorem Sound.append {is js : List Item} {ds es : List (FunDecl (.slotted N C T W))}
    (h : Sound p R own is ds) (k : Sound p R own js es) : Sound p R own (is ++ js) (ds ++ es) :=
  ⟨List.forall_mem_append.mpr ⟨h.items, k.items⟩, List.forall_mem_append.mpr ⟨h.decls, k.decls⟩,
    h.made.append k.made⟩

theorem Sound.declare {is : List Item} {ds : List (FunDecl (.slotted N C T W))} {σ : Slots}
    {b : BindingId} (hb : σ.Fresh p R b) (h : Sound p R own is ds) :
    Sound p R own (.declares b :: is) ds :=
  ⟨List.forall_mem_cons.mpr ⟨⟨fun hframe => (hb hframe).1, fun hframe => (hb hframe).2.2⟩, h.items⟩,
    h.decls, h.made.cons nofun⟩

theorem Sound.uses {σ : Slots} (hσ : Held p own σ) {s : Slot} (h : σ.Reads p R s) :
    Sound p R own [.uses s] ([] : List (FunDecl (.slotted N C T W))) := by
  refine ⟨fun i hi => ?_, nofun, Items.Made.cons nofun nofun⟩
  obtain rfl := List.mem_singleton.mp hi
  rw [Slots.Reads] at h
  refine ⟨fun hplace => ?_, ?_⟩
  · rw [hplace] at h
    exact h.2
  · rw [Item.Placed]
    cases hplace : s.place with
    | global =>
      rw [hplace] at h
      exact h
    | frame =>
      rw [hplace] at h
      exact hσ _ _ h
    | free => trivial

theorem makes_threaded {σ : Slots} (hσ : Held p own σ) {info : FunSlots}
    (h : ∀ v ∈ info.free, σ.Captures p R v) : (Item.makes info).Threaded p R own := by
  intro v hv
  obtain ⟨-, -, hcell⟩ := h v hv
  split at hcell
  · rename_i hframe
    rw [if_pos hframe]
    exact ⟨(hσ _ _ hcell).1, (hσ _ _ hcell).2.symm⟩
  · rename_i hframe
    rwa [if_neg hframe]

mutual

theorem afterPattern_held {σ : Slots} (hσ : Held p own σ) : (q : Pattern (.slotted N C T W)) →
    Owns p own (Items.pattern q) → Held p own (σ.afterPattern p q)
  | .wildcard _, _ | .literal .., _ => hσ
  | .bind _ _, h => hσ.add h.head
  | .ctor _ _ _ qs, h => afterPatterns_held hσ qs h

theorem afterPatterns_held {σ : Slots} (hσ : Held p own σ) :
    (qs : List (Pattern (.slotted N C T W))) → Owns p own (Items.patterns qs) →
      Held p own (σ.afterPatterns p qs)
  | [], _ => hσ
  | q :: qs, h => afterPatterns_held (afterPattern_held hσ q h.left) qs h.right

end

theorem afterStmt_held {σ : Slots} (hσ : Held p own σ) (s : Stmt (.slotted N C T W))
    (h : Owns p own (Items.stmt s)) : Held p own (σ.afterStmt p s) := by
  cases s with
  | bind _ _ b _ e => exact hσ.add (h.right.head)
  | func d =>
    rw [Slots.afterStmt]
    rw [Items.stmt] at h
    cases hb : d.info.binding with
    | none => exact hσ
    | some b =>
      rw [hb] at h
      exact hσ.add h.head
  | _ => exact hσ

end

mutual

theorem expr_sound {R : Region} {own : List BindingId} {σ : Slots} (hσ : Held p own σ) :
    (e : Expr (.slotted N C T W)) →
    Scoped.expr p R σ e → Owns p own (Items.expr e) → Sound p R own (Items.expr e) (Decls.expr e)
  | .name .., h, _ => .uses hσ h
  | .int .., _, _ | .float .., _, _ | .string .., _, _ | .char .., _, _ | .bool .., _, _ => .nil
  | .interpolated _ _ es, h, o | .array _ _ es, h, o => exprs_sound hσ es h o
  | .unary _ _ _ e, h, o | .tryUnwrap _ _ e, h, o | .member _ _ e _, h, o => expr_sound hσ e h o
  | .binary _ _ _ l r, h, o | .assign _ _ l r, h, o | .index _ _ l r, h, o | .range _ _ l r, h, o =>
    (expr_sound hσ l h.1 o.left).append (expr_sound hσ r h.2 o.right)
  | .call _ _ _ f es, h, o => (expr_sound hσ f h.1 o.left).append (exprs_sound hσ es h.2 o.right)
  | .new _ _ _ _ fs, h, o => inits_sound hσ fs h o
  | .block b, h, o => block_sound hσ b h o
  | .cond _ _ test body alt, h, o => (expr_sound hσ test h.1 o.left).append
      ((block_sound hσ body h.2.1 o.right.left).append (option_sound hσ alt h.2.2 o.right.right))
  | .cases _ _ subject _ as, h, o => (expr_sound hσ subject h.1 o.left).append
      (.declare h.2.1 (arms_sound (hσ.add o.right.head) as h.2.2 o.right.tail))

theorem exprs_sound {R : Region} {own : List BindingId} {σ : Slots} (hσ : Held p own σ) :
    (es : List (Expr (.slotted N C T W))) →
    Scoped.exprs p R σ es → Owns p own (Items.exprs es) → Sound p R own (Items.exprs es) (Decls.exprs es)
  | [], _, _ => .nil
  | e :: es, h, o => (expr_sound hσ e h.1 o.left).append (exprs_sound hσ es h.2 o.right)

theorem option_sound {R : Region} {own : List BindingId} {σ : Slots} (hσ : Held p own σ) :
    (e : Option (Expr (.slotted N C T W))) →
    Scoped.option p R σ e → Owns p own (Items.option e) → Sound p R own (Items.option e) (Decls.option e)
  | none, _, _ => .nil
  | some e, h, o => expr_sound hσ e h o

theorem inits_sound {R : Region} {own : List BindingId} {σ : Slots} (hσ : Held p own σ) :
    (fs : List (FieldInit (.slotted N C T W))) →
    Scoped.inits p R σ fs → Owns p own (Items.inits fs) → Sound p R own (Items.inits fs) (Decls.inits fs)
  | [], _, _ => .nil
  | .mk _ _ e :: fs, h, o => by
    rw [Scoped.inits] at h
    rw [Items.inits] at o
    exact (expr_sound hσ e h.1 o.left).append (inits_sound hσ fs h.2 o.right)

theorem arms_sound {R : Region} {own : List BindingId} {σ : Slots} (hσ : Held p own σ) :
    (as : List (Arm (.slotted N C T W))) →
    Scoped.arms p R σ as → Owns p own (Items.arms as) → Sound p R own (Items.arms as) (Decls.arms as)
  | [], _, _ => .nil
  | .mk _ q e :: as, h, o => by
    rw [Scoped.arms] at h
    rw [Items.arms] at o
    exact (pattern_sound hσ q h.1 o.left).append
      ((expr_sound (afterPattern_held hσ q o.left) e h.2.1 o.right.left).append
        (arms_sound hσ as h.2.2 o.right.right))

theorem pattern_sound {R : Region} {own : List BindingId} {σ : Slots} (hσ : Held p own σ) :
    (q : Pattern (.slotted N C T W)) →
    Scoped.pattern p R σ q → Owns p own (Items.pattern q) →
      Sound p R own (Items.pattern q) (Decls.pattern q)
  | .wildcard _, _, _ => .nil
  | .bind .., h, _ => .declare h .nil
  | .literal _ e, h, o => expr_sound hσ e h o
  | .ctor _ _ _ qs, h, o => patterns_sound hσ qs h o

theorem patterns_sound {R : Region} {own : List BindingId} {σ : Slots} (hσ : Held p own σ) :
    (qs : List (Pattern (.slotted N C T W))) →
    Scoped.patterns p R σ qs → Owns p own (Items.patterns qs) →
      Sound p R own (Items.patterns qs) (Decls.patterns qs)
  | [], _, _ => .nil
  | q :: qs, h, o => (pattern_sound hσ q h.1 o.left).append
      (patterns_sound (afterPattern_held hσ q o.left) qs h.2 o.right)

theorem block_sound {R : Region} {own : List BindingId} {σ : Slots} (hσ : Held p own σ) :
    (b : Block (.slotted N C T W)) →
    Scoped.block p R σ b → Owns p own (Items.block b) → Sound p R own (Items.block b) (Decls.block b)
  | .mk _ _ ss _, h, o => stmts_sound hσ ss h o

theorem stmts_sound {R : Region} {own : List BindingId} {σ : Slots} (hσ : Held p own σ) :
    (ss : List (Stmt (.slotted N C T W))) →
    Scoped.stmts p R σ ss → Owns p own (Items.stmts ss) → Sound p R own (Items.stmts ss) (Decls.stmts ss)
  | [], _, _ => .nil
  | s :: ss, h, o => (stmt_sound hσ s h.1 o.left).append
      (stmts_sound (afterStmt_held hσ s o.left) ss h.2 o.right)

theorem stmt_sound {R : Region} {own : List BindingId} {σ : Slots} (hσ : Held p own σ) :
    (s : Stmt (.slotted N C T W)) →
    Scoped.stmt p R σ s → Owns p own (Items.stmt s) → Sound p R own (Items.stmt s) (Decls.stmt s)
  | .expr _ e, h, o => expr_sound hσ e h o
  | .bind _ _ _ _ e, h, o => by
    simpa [Items.stmt, Decls.stmt] using (expr_sound hσ e h.1 o.left).append (.declare h.2 .nil)
  | .block b, h, o => block_sound hσ b h o
  | .ret _ e, h, o => option_sound hσ e h o
  | .loop _ e b, h, o => (expr_sound hσ e h.1 o.left).append (block_sound hσ b h.2 o.right)
  | .each _ _ l e b, h, o => by
    have hloop : Held p own (σ.inLoop p l) :=
      ((hσ.add o.right.head).add o.right.tail.head).add o.right.tail.tail.head
    exact (expr_sound hσ e h.1 o.left).append
      (.declare h.2.2.1.1 (.declare h.2.2.1.2.1 (.declare h.2.2.1.2.2
        (block_sound hloop b h.2.2.2 o.right.tail.tail.tail))))
  | .func d, ⟨hnames, hfunc⟩, o => by
    have hafter : Held p own (σ.afterStmt p (.func d)) := afterStmt_held hσ (.func d) o
    have hcaptures : ∀ v ∈ d.info.free, (σ.afterStmt p (.func d)).Captures p R v := by
      rw [Slots.Names] at hnames
      rw [Slots.afterStmt]
      cases hb : d.info.binding with
      | none =>
        rw [hb] at hnames
        simp [hnames]
      | some b =>
        rw [hb] at hnames
        exact hnames.2.2
    refine ⟨List.forall_mem_append.mpr ⟨?_, ?_⟩, func_sound d hfunc fun v hv => (hcaptures v hv).2.1, ?_⟩
    · intro i hi
      obtain ⟨b, hb, rfl⟩ := List.mem_map.mp hi
      rw [Slots.Names, Option.mem_toList.mp hb] at hnames
      exact ⟨fun hframe => (hnames.1 hframe).1, fun hframe => (hnames.1 hframe).2.2⟩
    · intro i hi
      obtain rfl := List.mem_singleton.mp hi
      exact ⟨makes_threaded hafter hcaptures, trivial⟩
    · intro info hinfo
      rcases List.mem_append.mp hinfo with hinfo | hinfo
      · obtain ⟨b, -, hb⟩ := List.mem_map.mp hinfo
        cases hb
      · obtain rfl := Item.makes.inj (List.mem_singleton.mp hinfo)
        exact ⟨d, Decls.mem_func d, rfl⟩
  | .impl _ _ ds, h, _ => funcs_sound ds h
  | .leave _, _, _ | .next _, _, _ | .record .., _, _ | .union .., _, _ | .use .., _, _ => .nil

theorem func_sound : (d : FunDecl (.slotted N C T W)) → Scoped.func p d →
    (∀ v ∈ d.info.free, (p.binding v.binding).captured = true) →
      ∀ x ∈ Decls.func d, x.Threads p ∧ x.Places p
  | .mk t nm info self params r (.mk n bt ss close), h, hmarked => by
    have hentry : Held p (FunDecl.own (.mk t nm info self params r (.mk n bt ss close)))
        (FunDecl.entry (.mk t nm info self params r (.mk n bt ss close))) := fun j b hb =>
      ⟨List.mem_append_left _ (List.mem_of_getElem? hb), (h.1.params j b hb).2.1⟩
    have hown : Owns p (FunDecl.own (.mk t nm info self params r (.mk n bt ss close)))
        (Items.stmts ss) := fun b hb _ => List.mem_append_right _ (Items.mem_declared hb)
    have hbody := stmts_sound hentry ss h.2 hown
    intro x hx
    rcases List.mem_cons.mp hx with rfl | hx
    · exact ⟨⟨h.1.distinct, hmarked, fun i hi => (hbody.items i hi).1⟩,
        fun i hi => (hbody.items i hi).2, hbody.made⟩
    · exact hbody.decls x hx

theorem funcs_sound {R : Region} {own : List BindingId} :
    (ds : List (FunDecl (.slotted N C T W))) → Scoped.funcs p ds →
    Sound p R own (ds.map fun d => .makes d.info) (Decls.funcs ds)
  | [], _ => .nil
  | d :: ds, ⟨⟨hfree, hd⟩, hds⟩ => by
    have hfirst : Sound p R own [Item.makes d.info] (Decls.func d) := by
      refine ⟨fun i hi => ?_, func_sound d hd (by simp [hfree]), fun info hinfo => ?_⟩
      · obtain rfl := List.mem_singleton.mp hi
        refine ⟨fun v hv => ?_, trivial⟩
        simp [hfree] at hv
      · obtain rfl := Item.makes.inj (List.mem_singleton.mp hinfo)
        exact ⟨d, Decls.mem_func d, rfl⟩
    exact hfirst.append (funcs_sound ds hds)

end

theorem top_found {ss : List (Stmt (.slotted N C T W))}
    (h : Scoped.stmts p .top (fun _ => none) ss) : Sound p .top [] (Items.stmts ss) (Decls.stmts ss) := by
  have hheld : ∀ own, Held p own fun _ => none := fun own j b hb => nomatch hb
  -- No slot is left for a variable of a frame.
  have hglobal : ∀ b, .declares b ∈ Items.stmts ss → (p.binding b).storage ≠ .frame := by
    intro b hb hframe
    have hall := stmts_sound (hheld (Items.declared (Items.stmts ss))) ss h fun b hb _ =>
      Items.mem_declared hb
    exact absurd ((hall.items _ hb).1 hframe) (Nat.not_lt_zero _)
  exact stmts_sound (hheld []) ss h fun b hb hframe => absurd hframe (hglobal b hb)

end Threads

end Scripting
