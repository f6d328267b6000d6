import Scripting.Proofs.Bundle.Linked

/-!
# The code of bundles

A bundle holds code of functions that its script reaches, and linking gives each of its functions an
object with its code. These objects lead to each other and to no other functions: `Linked`. Nothing is
asked here of the functions, so these facts also hold of what other engines have compiled.
-/

namespace Scripting.Bundle

variable {h : Heap} {script : Ref} {α β : Type}

/-- Whether a stored function has the code of one that a script reaches. One that is being stored has
none yet. -/
def Function.Copied (h : Heap) (script : Ref) (f : Function) : Prop :=
  f.code = [] ∨ ∃ r x c, h.Reaches script r ∧ h.Body r x c ∧ f.code = c.code.toList

def Collected.Copied (h : Heap) (script : Ref) (s : Collected) : Prop :=
  ∀ f ∈ s.functions, f.Copied h script

def Copies (h : Heap) (script : Ref) (m : Collect α) : Prop := ∀ s, s.Copied h script →
  (m.run.run s).2.Copied h script ∧ s.functions.size ≤ (m.run.run s).2.functions.size

def Below (h : Heap) (script : Ref) (v : Value) : Prop := ∀ s, h.Holds v (.func s) → h.Reaches script s

namespace Copies

theorem pure (a : α) : Copies h script (Pure.pure a) := fun _ hs => ⟨hs, Nat.le_refl _⟩

theorem throw (e : CollectError) : Copies h script (throw e : Collect α) :=
  fun _ hs => ⟨hs, Nat.le_refl _⟩

theorem bind {m : Collect α} {f : α → Collect β} (hm : Copies h script m)
    (hf : ∀ a, Copies h script (f a)) : Copies h script (m >>= f) := by
  intro s hs
  have hrun : (m >>= f).run.run s = ExceptT.bindCont f (m.run.run s).1 (m.run.run s).2 := rfl
  have ht := hm s hs
  rw [hrun]
  generalize m.run.run s = x at ht
  obtain ⟨r, t⟩ := x
  cases r with
  | error e => exact ht
  | ok a => exact ⟨(hf a t ht.1).1, Nat.le_trans ht.2 (hf a t ht.1).2⟩

theorem mapM {one : Value → Collect Constant} :
    (vs : List Value) → (∀ v ∈ vs, Copies h script (one v)) → Copies h script (vs.mapM one)
  | [], _ => .pure _
  | v :: vs, hone => by
    obtain ⟨hv, hvs⟩ := List.forall_mem_cons.mp hone
    rw [List.mapM_cons]
    exact .bind hv fun _ => .bind (mapM vs hvs) fun _ => .pure _

theorem tryCatch {m : Collect α} {f : CollectError → Collect α} (hm : Copies h script m)
    (hf : ∀ e, Copies h script (f e)) : Copies h script (tryCatch m f) := by
  intro s hs
  have ht := hm s hs
  cases hx : m.run.run s with
  | mk r t =>
    rw [hx] at ht
    cases r with
    | ok a =>
      rw [run_tryCatch_ok hx]
      exact ht
    | error e =>
      rw [run_tryCatch_error hx]
      exact ⟨(hf e t ht.1).1, Nat.le_trans ht.2 (hf e t ht.1).2⟩

theorem within {name : String} {m : Collect α} (hm : Copies h script m) :
    Copies h script (within name m) :=
  .tryCatch hm fun _ => .throw _

theorem store {one : Value → Collect Constant} (hone : ∀ v, Below h script v → Copies h script (one v))
    {r : Ref} (hr : h.Reaches script r) : Copies h script (store h one r) := by
  intro s hs
  have hsame := And.intro hs (Nat.le_refl s.functions.size)
  rw [store_eq]
  split
  · exact hsame
  · exact hsame
  · rename_i f _ hf
    split
    · exact hsame
    · rename_i c hc
      have hbelow : ∀ v ∈ c.constants.toList, Below h script v := fun v hv q hq =>
        hr.tail ⟨f, c, ⟨hf, hc⟩, v, Array.mem_toList_iff.mp hv, hq⟩
      have henter : (s.enter r).Copied h script := fun g hg => by
        rcases Array.mem_push.mp hg with hg | rfl
        · exact hs g hg
        · exact .inl rfl
      have hrest : Copies h script (do
          let constants ← Bundle.within f.name (c.constants.toList.mapM one)
          modify fun t => { t with
            functions := t.functions.setIfInBounds s.refs.size (storedAs f c constants) }
          return s.refs.size) := by
        refine .bind (within (mapM _ fun v hv => hone v (hbelow v hv))) fun constants =>
          .bind (fun t ht => ⟨fun g hg => ?_, ?_⟩) fun _ => .pure _
        · rcases Array.mem_or_eq_of_mem_setIfInBounds hg with hg | rfl
          · exact ht g hg
          · exact .inr ⟨r, f, c, hr, ⟨hf, hc⟩, rfl⟩
        · exact Nat.le_of_eq Array.size_setIfInBounds.symm
      obtain ⟨hcopied, hsize⟩ := hrest (s.enter r) henter
      exact ⟨hcopied, Nat.le_trans (by simp [Collected.enter]) hsize⟩

theorem constant (n : Nat) (v : Value) (hv : Below h script v) : Copies h script (constant h n v) := by
  induction n generalizing v with
  | zero =>
    rw [Bundle.constant.eq_def]
    cases v with
    | type i t =>
      dsimp only
      split
      · exact .pure _
      · exact .throw _
    | absent | func | inst | array | cell | host | closure => exact .throw _
    | _ => exact .pure _
  | succ n ih =>
    rw [Bundle.constant.eq_def]
    cases v with
    | type i t =>
      dsimp only
      split
      · exact .pure _
      · exact .throw _
    | func r => exact .bind (store ih (hv r (.self _))) fun _ => .pure _
    | inst r =>
      dsimp only
      split
      · exact .throw _
      · rename_i x hx
        refine .bind (mapM _ fun w hw => ih w fun s hs => ?_) fun _ => .pure _
        exact hv s (.inst hx (Array.mem_toList_iff.mp hw) hs)
    | absent => exact .throw _
    | array | cell | host | closure =>
      dsimp only
      split
      · exact .throw _
      · exact .throw _
    | _ => exact .pure _

end Copies

theorem store_first {one : Value → Collect Constant}
    (hone : ∀ v, Below h script v → Copies h script (one v)) {i : Nat} {t : Collected}
    (hrun : (store h one script).run.run {} = (.ok i, t)) : i = 0 ∧ 0 < t.functions.size := by
  have hnone : (#[] : Array Ref).findIdx? (· == script) = none := by simp
  rw [store_eq, hnone] at hrun
  dsimp only at hrun
  split at hrun
  · rename_i heq
    cases heq
  · cases hrun
  · rename_i f _ hf
    split at hrun
    · cases hrun
    · rename_i c hc
      obtain ⟨_, t₁, henter, hrun⟩ := exists_of_run_bind hrun
      obtain ⟨constants, t₂, hconstants, hrun⟩ := exists_of_run_bind hrun
      obtain ⟨hi, rfl⟩ := Prod.mk.inj hrun
      obtain ⟨-, rfl⟩ := Prod.mk.inj henter
      have hcopies : Copies h script (within f.name (c.constants.toList.mapM one)) :=
        .within (.mapM _ fun v hv => hone v fun q hq =>
          .single ⟨f, c, ⟨hf, hc⟩, v, Array.mem_toList_iff.mp hv, hq⟩)
      have hgrows := (hcopies (({} : Collected).enter script) (by
        intro g hg
        obtain rfl : g = default := by simpa [Collected.enter] using hg
        exact .inl rfl)).2
      rw [hconstants] at hgrows
      refine ⟨(Except.ok.inj hi).symm, ?_⟩
      rw [Array.size_setIfInBounds]
      exact Nat.lt_of_lt_of_le (by simp [Collected.enter]) hgrows

theorem ofScript_copied {globals : List String} {file : String} {b : Bundle}
    (hb : ofScript h script globals file = .ok b) : b.globals = globals ∧ b.script = 0 ∧
      0 < b.functions.length ∧ ∀ f ∈ b.functions, f.Copied h script := by
  have hone : ∀ v, Below h script v → Copies h script (constant h (depthBound h) v) :=
    Copies.constant (depthBound h)
  have hcopies := Copies.store hone .refl {} (by simp [Collected.Copied])
  rw [ofScript] at hb
  split at hb
  · rename_i i t hrun
    obtain rfl := Except.ok.inj hb
    obtain ⟨rfl, hsome⟩ := store_first hone hrun
    rw [hrun] at hcopies
    exact ⟨rfl, rfl, by simpa using hsome, fun f hf => hcopies.1 f (Array.mem_toList_iff.mp hf)⟩
  · cases hb

variable {resolve : String → StateM Heap (Option Value)} {funcs : Array Ref} {P : Ref → Prop}
  {g g' : Heap}

theorem Keeps.leads {v : Value} (hk : Keeps g g') (hv : g.Leads P v) : g'.Leads P v := by
  induction hv with
  | plain hv => exact .plain hv
  | func hr => exact .func hr
  | inst hx _ ih => exact .inst (hk.inst hx) ih

/-- Whether functions of the host are found without a change of functions and instances. -/
def Apart (resolve : String → StateM Heap (Option Value)) : Prop := ∀ name g,
  ((resolve name).run g).2.funcs = g.funcs ∧ ((resolve name).run g).2.insts = g.insts ∧
    ∀ v ∈ ((resolve name).run g).1, v.isPlain = true

def Puts (g g' : Heap) : Prop := g'.funcs = g.funcs ∧ Keeps g g'

theorem Puts.of_eq (hf : g'.funcs = g.funcs) (hi : g'.insts = g.insts) : Puts g g' :=
  ⟨hf, by rw [Keeps, hi]⟩

theorem Puts.trans {g'' : Heap} (h : Puts g g') (k : Puts g' g'') : Puts g g'' :=
  ⟨k.1.trans h.1, List.IsPrefix.trans h.2 k.2⟩

mutual

theorem load_leads (hresolve : Apart resolve) (hfuncs : ∀ r ∈ funcs, P r) : (c : Constant) →
    ∀ g g' v, (load resolve funcs c).run.run g = (.ok v, g') →
    Puts g g' ∧ g'.Leads P v
  | .int _ | .float _ | .str _ | .bool _ | .char _ | .unit => fun g g' v hrun => by
    rw [load] at hrun
    obtain ⟨hv, rfl⟩ := Prod.mk.inj hrun
    obtain rfl := Except.ok.inj hv
    exact ⟨.of_eq rfl rfl, .plain rfl⟩
  | .func i => fun g g' v hrun => by
    rw [load] at hrun
    split at hrun
    · rename_i r hr
      obtain ⟨hv, rfl⟩ := Prod.mk.inj hrun
      obtain rfl := Except.ok.inj hv
      split at hr
      · cases hr
      · exact ⟨.of_eq rfl rfl, .func (hfuncs r (Array.mem_of_getElem? hr))⟩
    · cases hrun
  | .builtin name => fun g g' v hrun => by
    rw [load] at hrun
    obtain ⟨found, g₁, hfound, hrun⟩ := exists_of_run_bind hrun
    obtain ⟨hf, hi, hplain⟩ := hresolve name g
    obtain ⟨hv, rfl⟩ := Prod.mk.inj hfound
    obtain rfl := Except.ok.inj hv
    split at hrun
    · rename_i w hw
      obtain ⟨hv, rfl⟩ := Prod.mk.inj hrun
      obtain rfl := Except.ok.inj hv
      exact ⟨.of_eq hf hi, .plain (hplain w hw)⟩
    · cases hrun
  | .ctor .. => fun g g' v hrun => by
    obtain ⟨hv, rfl⟩ := Prod.mk.inj hrun
    obtain rfl := Except.ok.inj hv
    exact ⟨.of_eq rfl rfl, .plain rfl⟩
  | .inst t tag names fields => fun g g' v hrun => by
    rw [load] at hrun
    obtain ⟨vs, g₁, hvs, hrun⟩ := exists_of_run_bind hrun
    obtain ⟨hputs, hleads⟩ := loadAll_leads hresolve hfuncs fields _ _ _ hvs
    obtain ⟨hv, rfl⟩ := Prod.mk.inj hrun
    obtain rfl := Except.ok.inj hv
    have hkeeps : Keeps g₁ (g₁.newInst ⟨t, tag, names, vs.toArray⟩).2 := by simp [Keeps, Heap.newInst]
    refine ⟨hputs.trans ⟨rfl, hkeeps⟩, .inst (x := ⟨t, tag, names, vs.toArray⟩) ?_ fun w hw => ?_⟩
    · exact Array.getElem?_push_size
    · exact hkeeps.leads (hleads w (by simpa using hw))
  | .type _ => fun g g' v hrun => by
    obtain ⟨hv, rfl⟩ := Prod.mk.inj hrun
    obtain rfl := Except.ok.inj hv
    exact ⟨.of_eq rfl rfl, .plain rfl⟩
  | .unknown _ => fun g g' v hrun => by
    rw [load] at hrun
    cases hrun

theorem loadAll_leads (hresolve : Apart resolve) (hfuncs : ∀ r ∈ funcs, P r) : (cs : List Constant) → ∀ g g' vs,
    (load.loadAll resolve funcs cs).run.run g = (.ok vs, g') → Puts g g' ∧ ∀ v ∈ vs, g'.Leads P v
  | [] => fun g g' vs hrun => by
    obtain ⟨hv, rfl⟩ := Prod.mk.inj hrun
    obtain rfl := Except.ok.inj hv
    exact ⟨.of_eq rfl rfl, by simp⟩
  | c :: cs => fun g g' vs hrun => by
    rw [load.loadAll] at hrun
    obtain ⟨v, g₁, hv, hrun⟩ := exists_of_run_bind hrun
    obtain ⟨ws, g₂, hws, hrun⟩ := exists_of_run_bind hrun
    obtain ⟨hput, hleads⟩ := load_leads hresolve hfuncs c _ _ _ hv
    obtain ⟨hputs, hall⟩ := loadAll_leads hresolve hfuncs cs _ _ _ hws
    obtain ⟨hvs, rfl⟩ := Prod.mk.inj hrun
    obtain rfl := Except.ok.inj hvs
    exact ⟨hput.trans hputs, List.forall_mem_cons.mpr ⟨hputs.2.leads hleads, hall⟩⟩

end

/-- A function of a heap with the code of a stored one, which leads to functions of some kind only. -/
def Linked (P : Ref → Prop) (g : Heap) (f : Function) (r : Ref) : Prop :=
  ∃ x chunk, g.Body r x chunk ∧ chunk.code = f.code.toArray ∧ ∀ v ∈ chunk.constants, g.Leads P v

theorem Linked.later {f : Function} {r : Ref} (h : Linked P g f r) (hk : Keeps g g')
    (hr : g'.funcs[r]? = g.funcs[r]?) : Linked P g' f r := by
  obtain ⟨x, chunk, ⟨hx, hchunk⟩, hcode, hleads⟩ := h
  exact ⟨x, chunk, ⟨hr.trans hx, hchunk⟩, hcode, fun v hv => hk.leads (hleads v hv)⟩

section

variable (hresolve : Apart resolve) (hfuncs : ∀ r ∈ funcs, P r)
include hresolve hfuncs

theorem loadBody_code {f : Function} {r : Ref} (hr : r < g.funcs.size)
    (hrun : (loadBody resolve funcs f r).run.run g = (.ok (), g')) :
    g'.funcs.size = g.funcs.size ∧ (∀ q, q ≠ r → g'.funcs[q]? = g.funcs[q]?) ∧ Keeps g g' ∧
      Linked P g' f r := by
  rw [loadBody] at hrun
  obtain ⟨vs, g₁, hvs, hrun⟩ := exists_of_run_bind hrun
  obtain ⟨-, rfl⟩ := Prod.mk.inj hrun
  have hload : (load.loadAll resolve funcs f.constants).run.run g = (.ok vs, g₁) := by
    rw [loadAll_eq]
    cases hx : (f.constants.mapM (load resolve funcs)).run.run g with
    | mk res g₂ =>
      cases res with
      | ok ws => exact (run_tryCatch_ok hx).symm.trans hvs
      | error e =>
        have herror := (run_tryCatch_error hx).symm.trans hvs
        cases herror
  obtain ⟨⟨hsame, hkeeps⟩, hleads⟩ := loadAll_leads hresolve hfuncs f.constants _ _ _ hload
  refine ⟨by simp [hsame], fun q hq => ?_, hkeeps, ?_⟩
  · show (g₁.funcs.modify r _)[q]? = _
    rw [Array.getElem?_modify, if_neg (Ne.symm hq), hsame]
  · have hget : g₁.funcs[r]? = some g.funcs[r] := by rw [hsame, Array.getElem?_eq_getElem hr]
    refine ⟨{ g.funcs[r] with chunk := some (bodyOf f vs) }, bodyOf f vs, ⟨?_, rfl⟩, rfl, fun v hv => ?_⟩
    · show (g₁.funcs.modify r _)[r]? = _
      rw [Array.getElem?_modify, if_pos rfl, hget]
      rfl
    · exact Keeps.leads .withFuncs (hleads v (by simpa [bodyOf] using hv))

theorem bodies_code : (fs : List Function) → (rs : List Ref) → {g g' : Heap} → rs.Nodup →
    (∀ r ∈ rs, r < g.funcs.size) →
    ((fs.zip rs).forM fun (f, r) => loadBody resolve funcs f r).run.run g = (.ok (), g') →
      g'.funcs.size = g.funcs.size ∧ (∀ q, q ∉ rs → g'.funcs[q]? = g.funcs[q]?) ∧ Keeps g g' ∧
        ∀ (i : Nat) f r, fs[i]? = some f → rs[i]? = some r → Linked P g' f r
  | [], _, _, _, _, _, hrun => by
    obtain ⟨-, rfl⟩ := Prod.mk.inj hrun
    exact ⟨rfl, fun _ _ => rfl, List.prefix_rfl, by simp⟩
  | _ :: _, [], _, _, _, _, hrun => by
    obtain ⟨-, rfl⟩ := Prod.mk.inj hrun
    exact ⟨rfl, fun _ _ => rfl, List.prefix_rfl, by simp⟩
  | f :: fs, r :: rs, g, g', hnodup, hroom, hrun => by
    obtain ⟨hnew, hnodup⟩ := List.nodup_cons.mp hnodup
    obtain ⟨hr, hroom⟩ := List.forall_mem_cons.mp hroom
    obtain ⟨_, g₁, hbody, hrun⟩ := exists_of_run_bind hrun
    obtain ⟨hsize, hothers, hkeeps, hlinked⟩ := loadBody_code hresolve hfuncs hr hbody
    obtain ⟨hsize', hothers', hkeeps', hlinked'⟩ :=
      bodies_code fs rs hnodup (fun q hq => hsize ▸ hroom q hq) hrun
    refine ⟨hsize'.trans hsize, fun q hq => ?_, hkeeps.trans hkeeps', fun i k q hi hq => ?_⟩
    · obtain ⟨hne, hq⟩ := not_or.mp (mt List.mem_cons.mpr hq)
      rw [hothers' q hq, hothers q hne]
    · cases i with
      | zero =>
        obtain rfl := Option.some.inj hi
        obtain rfl := Option.some.inj hq
        exact hlinked.later hkeeps' (hothers' r hnew)
      | succ i => exact hlinked' i k q hi hq

end

def IsPlace (g : Heap) (b : Bundle) (r : Ref) : Prop :=
  g.funcs.size ≤ r ∧ r < g.funcs.size + b.functions.length

/-- What a linked bundle is made of: its functions take the places behind those that are there, in their
order and with their code. -/
theorem link_code (hresolve : Apart resolve) {b : Bundle} {ref : Ref}
    (hrun : (b.link resolve).run.run g = (.ok ref, g')) :
    (∀ q < g.funcs.size, g'.funcs[q]? = g.funcs[q]?) ∧ Keeps g g' ∧
      (∀ (i : Nat) f, b.functions[i]? = some f → Linked (b.IsPlace g) g' f (g.funcs.size + i)) ∧
      (b.script.toNat < b.functions.length → ref = g.funcs.size + b.script.toNat) := by
  have hlink : b.link resolve = (b.functions.mapM fun f => (modifyGet fun h => h.newFunc (shell f)
      : Linking Ref)) >>= fun refs => do
        (b.functions.zip refs).forM fun (f, r) => loadBody resolve refs.toArray f r
        return refs.toArray.getD b.script.toNat 0 := rfl
  rw [hlink, run_bind (shells_run b.functions g)] at hrun
  obtain ⟨_, g₁, hbodies, hrun⟩ := exists_of_run_bind hrun
  obtain ⟨href, rfl⟩ := Prod.mk.inj hrun
  have hplaces : ∀ r ∈ (List.range' g.funcs.size b.functions.length).toArray, b.IsPlace g r := by
    intro r hr
    obtain ⟨hle, hlt⟩ := List.mem_range'_1.mp (List.mem_toArray.mp hr)
    exact ⟨hle, hlt⟩
  obtain ⟨-, hothers, hkeeps, hlinked⟩ := bodies_code hresolve hplaces _ _ List.nodup_range' (by
    intro r hr
    have := (List.mem_range'_1.mp hr).2
    simpa using this) hbodies
  refine ⟨fun q hq => ?_, hkeeps, fun i f hi => ?_, fun hlt => ?_⟩
  · rw [hothers q fun hmem => absurd (List.mem_range'_1.mp hmem).1 (Nat.not_le.mpr hq)]
    simp [Array.getElem?_append, hq]
  · have hlt := (List.getElem?_eq_some_iff.mp hi).1
    exact hlinked i f _ hi (by simp [hlt])
  · rw [← Except.ok.inj href]
    simp [hlt]

theorem link_reaches (hresolve : Apart resolve) {b : Bundle} {ref : Ref}
    (hrun : (b.link resolve).run.run g = (.ok ref, g')) (hscript : b.script.toNat < b.functions.length)
    {q : Ref} (hq : g'.Reaches ref q) :
    ∃ f ∈ b.functions, Linked (b.IsPlace g) g' f q := by
  obtain ⟨-, -, hlinked, href⟩ := link_code hresolve hrun
  have hat : ∀ r, b.IsPlace g r → ∃ f ∈ b.functions, Linked (b.IsPlace g) g' f r := by
    intro r hr
    obtain ⟨i, rfl⟩ := Nat.exists_eq_add_of_le hr.1
    have hlt : i < b.functions.length := Nat.lt_of_add_lt_add_left hr.2
    exact ⟨b.functions[i], List.getElem_mem hlt, hlinked i _ (List.getElem?_eq_getElem hlt)⟩
  refine hat q (hq.kind ?_ fun r f c hr hb v hv => ?_)
  · rw [href hscript]
    exact ⟨Nat.le_add_right _ _, Nat.add_lt_add_left hscript _⟩
  · obtain ⟨f', -, x, chunk, hbody, -, hleads⟩ := hat r hr
    obtain ⟨rfl, rfl⟩ := hbody.unique hb
    exact hleads v hv

end Scripting.Bundle
