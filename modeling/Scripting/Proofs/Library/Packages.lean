import Scripting.Library.Package
import Scripting.Library.Registry
import Scripting.Proofs.Syntax.Annotations

/-!
# Generated manifests name what they declare

`Manifest.Module.Covers` says that every name in an annotation is a type parameter, a type without
parameters that every program knows, or a type of the module with as many arguments as it has parameters.
`GoPackage.manifest_closed` says this of all parameters and results of a generated manifest, and that its
module can be loaded, for packages that are `Portable`: an exported type that is not another name of a
type is made from a structure, an interface or a basic type. A type made from anything else is named
without being declared.
-/

namespace Scripting

theorem exists_mapM {α β ε : Type} {f : α → Except ε β} {xs : List α}
    (h : ∀ x ∈ xs, ∃ y, f x = .ok y) : ∃ ys, xs.mapM f = .ok ys := by
  induction xs with
  | nil => exact ⟨[], rfl⟩
  | cons x xs ih =>
    obtain ⟨y, hy⟩ := h x (by simp)
    obtain ⟨ys, hys⟩ := ih fun z hz => h z (by simp [hz])
    exact ⟨y :: ys, by rw [List.mapM_cons, hy, hys]; rfl⟩

theorem exists_bind {α β ε : Type} {x : Except ε α} {f : α → Except ε β} (hx : ∃ a, x = .ok a)
    (hf : ∀ a, ∃ b, f a = .ok b) : ∃ b, x >>= f = .ok b := by
  obtain ⟨a, rfl⟩ := hx
  exact hf a

/-- Every name in an annotation is known where `params` are the type parameters. -/
inductive Manifest.Module.Covers (m : Manifest.Module) (params : List String) : TypeExpr → Prop
  | param {tok : Token} {x : String} : x ∈ params → m.Covers params (.named tok [x] [])
  | primitive {tok : Token} {c : TyCon} : c ∈ Ty.primitives → m.Covers params (.named tok [c.name] [])
  | declared {tok : Token} {path : List String} {args : List TypeExpr} {d : Manifest.TypeDecl} :
      d ∈ m.types → ".".intercalate path = d.name → args.length = d.typeParams.length →
      (∀ t ∈ args, m.Covers params t) → m.Covers params (.named tok path args)
  | array {tok : Token} {elem : TypeExpr} : m.Covers params elem → m.Covers params (.array tok elem)

namespace Manifest.Module

variable {m : Manifest.Module} {params : List String}

theorem bares_eq_map (ts : List TypeExpr) : TypeExpr.bares ts = ts.map TypeExpr.bare := by
  induction ts with
  | nil => rfl
  | cons t ts ih => rw [TypeExpr.bares, ih, List.map_cons]

theorem Covers.of_bare {t u : TypeExpr} (h : m.Covers params t) (hbare : u.bare = t.bare) :
    m.Covers params u := by
  induction h generalizing u with
  | param hx =>
    cases u with
    | named tok path args =>
      obtain ⟨-, rfl, hargs⟩ := TypeExpr.named.inj hbare
      obtain rfl : args = [] := by simpa [bares_eq_map] using hargs
      exact .param hx
    | array => cases hbare
  | primitive hc =>
    cases u with
    | named tok path args =>
      obtain ⟨-, rfl, hargs⟩ := TypeExpr.named.inj hbare
      obtain rfl : args = [] := by simpa [bares_eq_map] using hargs
      exact .primitive hc
    | array => cases hbare
  | declared hd hname hcount _ ih =>
    cases u with
    | named tok path args =>
      obtain ⟨-, rfl, hargs⟩ := TypeExpr.named.inj hbare
      rw [bares_eq_map, bares_eq_map] at hargs
      refine .declared hd hname ?_ fun t ht => ?_
      · rw [← hcount]
        simpa using congrArg List.length hargs
      · obtain ⟨v, hv, hvt⟩ := List.mem_map.mp (hargs ▸ List.mem_map_of_mem ht)
        exact ih v hv hvt.symm
    | array => cases hbare
  | array _ ih =>
    cases u with
    | named => cases hbare
    | array tok elem => exact .array (ih (TypeExpr.array.inj hbare).2)

theorem Covers.parse {t : TypeExpr} (h : m.Covers params t) (hnamed : t.Named) :
    ∃ u, TypeExpr.parse t.text = .ok u ∧ m.Covers params u := by
  obtain ⟨u, hparse, hbare⟩ := TypeExpr.exists_parse_text hnamed
  exact ⟨u, hparse, h.of_bare hbare⟩

end Manifest.Module

namespace GoPackage

variable (p : GoPackage)

/-- An exported type that is not another name of a type is made from a structure, an interface or a basic
type. -/
def Shaped (d : GoTypeDecl) : Prop :=
  match d.kind with
  | .alias _ => True
  | _ => Text.startsUpper d.name = true → p.declShape d ≠ .other

mutual

/-- The types of the package in a type are declared, shaped and have all their arguments, and its type
parameters are in scope. -/
def Offers (params : List String) : GoType → Prop
  | .param x => x ∈ params
  | .pointer t => Offers params t
  | .slice t => Offers params t
  | .array t => Offers params t
  | .named name args =>
    (∃ d, p.decl? name = some d ∧ p.Shaped d ∧ args.length = d.typeParams.length) ∧
      OffersAll params args
  | _ => True

def OffersAll (params : List String) : List GoType → Prop
  | [] => True
  | t :: ts => Offers params t ∧ OffersAll params ts

end

/-- A function over known types; `owner` are the type parameters of the type it belongs to. -/
structure OffersFunc (owner : List String) (f : GoFunc) : Prop where
  names : ∀ x ∈ f.typeParams, isName x = true
  params : p.OffersAll (owner ++ f.typeParams) f.params
  results : p.OffersAll (owner ++ f.typeParams) f.results

/-- A package whose names are identifiers of scripts and whose functions are over known types. -/
structure Portable : Prop where
  module : isName (capitalized p.name) = true
  types : ∀ d ∈ p.types, isName d.name = true ∧ ∀ x ∈ d.typeParams, isName x = true
  funcs : ∀ f ∈ p.funcs, p.OffersFunc [] f
  methods : ∀ d ∈ p.types, ∀ f ∈ d.methods, p.OffersFunc d.typeParams f

section Exported

variable {α : Type} {name : α → String} {xs : List α} {x : α}

def keepFirst (name : α → String) (seen : List α) (x : α) : List α :=
  if seen.any fun y => name y == name x then seen else seen ++ [x]

theorem exported_eq (name : α → String) (xs : List α) : exported name xs =
    ((xs.foldl (keepFirst name) []).filter fun x => Text.startsUpper (name x)).mergeSort
      fun a b => name a ≤ name b := rfl

theorem mem_foldl_keepFirst {seen : List α} (h : x ∈ xs.foldl (keepFirst name) seen) : x ∈ seen ∨ x ∈ xs := by
  induction xs generalizing seen with
  | nil => exact .inl h
  | cons y ys ih =>
    rcases ih h with h | h
    · rw [keepFirst] at h
      split at h
      · exact .inl h
      · rcases List.mem_append.mp h with h | h
        · exact .inl h
        · exact .inr (by simp [List.mem_singleton.mp h])
    · exact .inr (List.mem_cons_of_mem y h)

theorem foldl_keepFirst_of_mem {seen : List α} (h : x ∈ seen) : x ∈ xs.foldl (keepFirst name) seen := by
  induction xs generalizing seen with
  | nil => exact h
  | cons y ys ih =>
    refine ih ?_
    rw [keepFirst]
    split
    · exact h
    · exact List.mem_append_left _ h

theorem foldl_keepFirst_of_find? {seen : List α} {n : String} (hseen : ∀ y ∈ seen, name y ≠ n)
    (h : xs.find? (fun y => name y == n) = some x) : x ∈ xs.foldl (keepFirst name) seen := by
  induction xs generalizing seen with
  | nil => simp at h
  | cons y ys ih =>
    rw [List.find?_cons] at h
    by_cases hy : name y = n
    · obtain rfl : y = x := by simpa [hy] using h
      have hnew : (seen.any fun z => name z == name y) = false := by
        simpa [List.any_eq_false, hy] using hseen
      have hkept : y ∈ keepFirst name seen y := by simp [keepFirst, hnew]
      rw [List.foldl_cons]
      exact foldl_keepFirst_of_mem hkept
    · have hlater : ys.find? (fun y => name y == n) = some x := by
        rwa [beq_false_of_ne hy] at h
      refine ih (fun z hz => ?_) hlater
      rw [keepFirst] at hz
      split at hz
      · exact hseen z hz
      · rcases List.mem_append.mp hz with hz | hz
        · exact hseen z hz
        · rwa [List.mem_singleton.mp hz]

theorem mem_of_mem_exported (h : x ∈ exported name xs) : x ∈ xs := by
  rw [exported_eq, List.mem_mergeSort, List.mem_filter] at h
  exact (mem_foldl_keepFirst h.1).resolve_left (List.not_mem_nil)

theorem mem_exported_of_find? {n : String} (h : xs.find? (fun y => name y == n) = some x)
    (hupper : Text.startsUpper n = true) : x ∈ exported name xs := by
  have hname : name x = n := by simpa using List.find?_some h
  rw [exported_eq, List.mem_mergeSort, List.mem_filter]
  exact ⟨foldl_keepFirst_of_find? (by simp) h, by rw [hname]; exact hupper⟩

end Exported

variable {p} {params : List String}

def filled (p : GoPackage) : Manifest.Module := p.moduleDecl.withDefaults

theorem exists_mem_types {name : String} {d : GoTypeDecl} (hd : p.decl? name = some d)
    (hupper : Text.startsUpper name = true) (hkind : ∀ t, d.kind ≠ .alias t)
    (hshape : p.declShape d = .struct ∨ p.declShape d = .interface) :
    ∃ x ∈ p.filled.types, x.name = p.typeName name ∧ x.typeParams = d.typeParams := by
  have hname : d.name = name := by simpa using List.find?_some hd
  have hmem : d ∈ exported GoTypeDecl.name p.types := mem_exported_of_find? hd hupper
  obtain ⟨x, hx, hxname, hxparams⟩ : ∃ x, p.typeDecl? d = some x ∧ x.name = p.typeName name ∧
      x.typeParams = d.typeParams := by
    rw [typeDecl?]
    split
    · exact absurd ‹_› (hkind _)
    · exact ⟨_, rfl, by rw [hname], rfl⟩
    · exact ⟨_, rfl, by rw [hname], rfl⟩
    · rcases hshape with h | h <;> simp_all
  refine ⟨{ x with methods := x.methods.map (Manifest.Func.withDefaults x.name) }, ?_, hxname, hxparams⟩
  refine List.mem_map.mpr ⟨x, List.mem_cons_of_mem _ ?_, rfl⟩
  exact List.mem_filterMap.mpr ⟨d, hmem, hx⟩

def Annotated (p : GoPackage) (params : List String) (text : String) : Prop :=
  ∃ e : TypeExpr, e.text = text ∧ e.Named ∧ p.filled.Covers params e

theorem annotated_primitive {c : TyCon} (hc : c ∈ Ty.primitives) : p.Annotated params c.name := by
  refine ⟨.named .blank [c.name] [], rfl, .named (by simp) ?_ (by simp), .primitive hc⟩
  have hall : ∀ c ∈ Ty.primitives, isName c.name = true := by decide
  simpa using hall c hc

theorem annotated_any : p.Annotated params "Any" :=
  annotated_primitive (c := Ty.anyCon) (by decide)

theorem annotated_basic (k : GoBasic) : p.Annotated params k.scriptType := by
  cases k with
  | bool => exact annotated_primitive (c := Ty.boolCon) (by decide)
  | int => exact annotated_primitive (c := Ty.intCon) (by decide)
  | float => exact annotated_primitive (c := Ty.doubleCon) (by decide)
  | string => exact annotated_primitive (c := Ty.stringCon) (by decide)
  | other => exact annotated_any

theorem Annotated.array {text : String} (h : p.Annotated params text) :
    p.Annotated params (text ++ "[]") := by
  obtain ⟨e, rfl, hnamed, hcovers⟩ := h
  exact ⟨.array .blank e, rfl, .array hnamed, .array hcovers⟩

def AnnotatedAll (p : GoPackage) (params : List String) (texts : List String) : Prop :=
  ∃ es : List TypeExpr, TypeExpr.texts es = texts ∧ (∀ e ∈ es, e.Named) ∧
    ∀ e ∈ es, p.filled.Covers params e

theorem length_texts (es : List TypeExpr) : (TypeExpr.texts es).length = es.length := by
  induction es with
  | nil => rfl
  | cons e es ih => rw [TypeExpr.texts, List.length_cons, ih, List.length_cons]

theorem length_scriptTypes (p : GoPackage) (ts : List GoType) : (p.scriptTypes ts).length = ts.length := by
  induction ts with
  | nil => rfl
  | cons t ts ih => rw [scriptTypes, List.length_cons, ih, List.length_cons]

theorem annotated_declared (hmodule : isName (capitalized p.name) = true) {name : String}
    (hname : isName name = true) {x : Manifest.TypeDecl} (hx : x ∈ p.filled.types)
    (hxname : x.name = p.typeName name) {texts : List String} (hcount : texts.length = x.typeParams.length)
    (hargs : p.AnnotatedAll params texts) :
    p.Annotated params (if texts.isEmpty then p.typeName name
      else p.typeName name ++ "<" ++ ", ".intercalate texts ++ ">") := by
  obtain ⟨es, rfl, hnamed, hcovers⟩ := hargs
  have hpath : ".".intercalate ["Go", capitalized p.name, name] = p.typeName name := by
    change "Go" ++ "." ++ capitalized p.name ++ "." ++ name = _
    rw [typeName, module, show "Go" ++ "." = "Go." by decide]
  refine ⟨.named .blank ["Go", capitalized p.name, name] es, ?_, .named (by simp) ?_ hnamed, ?_⟩
  · rw [TypeExpr.text, hpath]
    cases es with
    | nil => rfl
    | cons e es => rfl
  · have hgo : isName "Go" = true := by decide
    simp [hgo, hmodule, hname]
  · exact .declared hx (hpath.trans hxname.symm) ((length_texts es).symm.trans hcount) hcovers

mutual

theorem annotated_scriptType (hp : p.Portable) (hparams : ∀ x ∈ params, isName x = true) :
    (t : GoType) → p.Offers params t → p.Annotated params (p.scriptType t)
  | .basic k, _ => by
    rw [scriptType]
    exact annotated_basic k
  | .error, _ => by
    rw [scriptType]
    exact annotated_basic .string
  | .pointer t, h => by
    rw [scriptType]
    exact annotated_scriptType hp hparams t (by rwa [Offers] at h)
  | .slice t, h => by
    rw [scriptType]
    exact (annotated_scriptType hp hparams t (by rwa [Offers] at h)).array
  | .array t, h => by
    rw [scriptType]
    exact (annotated_scriptType hp hparams t (by rwa [Offers] at h)).array
  | .param x, h => by
    rw [Offers] at h
    rw [scriptType]
    exact ⟨.named .blank [x] [], rfl, .named (by simp) (by simpa using hparams x h) (by simp), .param h⟩
  | .named name args, h => by
    rw [Offers] at h
    obtain ⟨⟨d, hd, hshaped, hcount⟩, hargs⟩ := h
    have hall := annotated_scriptTypes hp hparams args hargs
    have hname : d.name = name := by simpa using List.find?_some hd
    have hident : isName name = true := hname ▸ (hp.types d (List.mem_of_find?_eq_some hd)).1
    rw [scriptType, hd]
    dsimp only
    split
    · exact annotated_any
    · exact annotated_any
    · rename_i hupper hkinds
      split
      · exact annotated_basic _
      · rename_i hbasic
        have hother : p.declShape d ≠ .other := by
          rw [Shaped] at hshaped
          split at hshaped
          · exact absurd ‹_› (hkinds _)
          · exact hshaped (hname.symm ▸ hupper)
        have hshape : p.declShape d = .struct ∨ p.declShape d = .interface := by
          cases hs : p.declShape d <;> simp_all
        obtain ⟨x, hx, hxname, hxparams⟩ := exists_mem_types hd hupper hkinds hshape
        have hlength : (p.scriptTypes args).length = x.typeParams.length := by
          rw [length_scriptTypes, hcount, hxparams]
        have hempty : (p.scriptTypes args).isEmpty = args.isEmpty := by cases args <;> rfl
        have := annotated_declared hp.module hident hx hxname hlength hall
        rwa [hempty] at this
  | .other, _ => by
    rw [scriptType]
    exact annotated_any

theorem annotated_scriptTypes (hp : p.Portable) (hparams : ∀ x ∈ params, isName x = true) :
    (ts : List GoType) → p.OffersAll params ts → p.AnnotatedAll params (p.scriptTypes ts)
  | [], _ => ⟨[], rfl, by simp, by simp⟩
  | t :: ts, h => by
    rw [OffersAll] at h
    obtain ⟨e, he, hnamed, hcovers⟩ := annotated_scriptType hp hparams t h.1
    obtain ⟨es, hes, hnamedAll, hcoversAll⟩ := annotated_scriptTypes hp hparams ts h.2
    refine ⟨e :: es, by rw [TypeExpr.texts, he, hes, scriptTypes], ?_, ?_⟩
    · exact List.forall_mem_cons.mpr ⟨hnamed, hnamedAll⟩
    · exact List.forall_mem_cons.mpr ⟨hcovers, hcoversAll⟩

end

theorem offersAll_iff {ts : List GoType} : p.OffersAll params ts ↔ ∀ t ∈ ts, p.Offers params t := by
  induction ts with
  | nil => simp [OffersAll]
  | cons t ts ih => rw [OffersAll, ih, List.forall_mem_cons]

theorem scriptTypes_eq_map (p : GoPackage) (ts : List GoType) : p.scriptTypes ts = ts.map p.scriptType := by
  induction ts with
  | nil => rfl
  | cons t ts ih => rw [scriptTypes, ih, List.map_cons]

theorem offers_element {t : GoType} (h : p.Offers params t) : p.Offers params (element t) := by
  cases t with
  | slice t => rwa [Offers] at h
  | _ => exact h

theorem offers_callerParams {f : GoFunc} (h : ∀ t ∈ f.params, p.Offers params t) :
    ∀ t ∈ callerParams f, p.Offers params t := by
  intro t ht
  rw [callerParams] at ht
  split at ht
  · rename_i last _ hlast
    rcases List.mem_append.mp ht with ht | ht
    · exact h t (List.dropLast_subset _ ht)
    · obtain rfl := List.mem_singleton.mp ht
      exact offers_element (h last (List.mem_of_getLast? hlast))
  · exact h t ht

theorem annotated_result (hp : p.Portable) (hparams : ∀ x ∈ params, isName x = true) {ts : List GoType}
    (h : ∀ t ∈ ts, p.Offers params t) : p.Annotated params (p.result ts) := by
  rw [result]
  split
  · exact annotated_primitive (c := Ty.unitCon) (by decide)
  · rename_i t hone
    refine annotated_scriptType hp hparams t (h t ?_)
    have hmem : t ∈ if (ts.getLast?.map p.isError).getD false then ts.dropLast else ts := by simp [hone]
    split at hmem
    · exact List.dropLast_subset _ hmem
    · exact hmem
  · exact annotated_any

/-- All types of a declaration of a function are annotations over known names. -/
structure AnnotatedFunc (p : GoPackage) (scope : List String) (f : Manifest.Func) : Prop where
  params : ∀ text ∈ f.params, p.Annotated scope text
  returns : p.Annotated scope f.returns

theorem annotated_func (hp : p.Portable) {f : GoFunc} (hf : p.OffersFunc params f)
    (hparams : ∀ x ∈ params, isName x = true) (isStatic : Bool) (path : List String) (owner : String) :
    p.AnnotatedFunc (params ++ f.typeParams) ((p.func isStatic path f).withDefaults owner) := by
  have hall : ∀ x ∈ params ++ f.typeParams, isName x = true :=
    List.forall_mem_append.mpr ⟨hparams, hf.names⟩
  constructor
  · intro text htext
    obtain ⟨t, ht, rfl⟩ : ∃ t ∈ callerParams f, p.scriptType t = text := by
      simpa [Manifest.Func.withDefaults, func, scriptTypes_eq_map] using htext
    exact annotated_scriptType hp hall t (offers_callerParams (offersAll_iff.mp hf.params) t ht)
  · rw [Manifest.Func.withDefaults]
    dsimp only
    split
    · exact annotated_primitive (c := Ty.unitCon) (by decide)
    · exact annotated_result hp hall (offersAll_iff.mp hf.results)

def inScope (d : Manifest.TypeDecl) (f : Manifest.Func) : List String :=
  (if f.isStatic then [] else d.typeParams) ++ f.typeParams

theorem annotated_types (hp : p.Portable) : ∀ d ∈ p.filled.types,
    d.bases = [] ∧ ∀ f ∈ d.methods, p.AnnotatedFunc (inScope d f) f := by
  intro d hd
  obtain ⟨x, hx, rfl⟩ := List.mem_map.mp hd
  rcases List.mem_cons.mp hx with rfl | hx
  · refine ⟨rfl, fun f hf => ?_⟩
    obtain ⟨g, hg, rfl⟩ := List.mem_map.mp hf
    obtain ⟨h, hh, rfl⟩ := List.mem_map.mp hg
    have hmem : h ∈ p.funcs := (List.mem_filter.mp (mem_of_mem_exported hh)).1
    exact annotated_func hp (hp.funcs h hmem) (by simp) true [] p.module
  · obtain ⟨c, hc, hdecl⟩ := List.mem_filterMap.mp hx
    have hmem : c ∈ p.types := mem_of_mem_exported hc
    rw [typeDecl?] at hdecl
    split at hdecl
    · cases hdecl
    · obtain rfl := Option.some.inj hdecl
      refine ⟨rfl, fun f hf => ?_⟩
      obtain ⟨g, hg, rfl⟩ := List.mem_map.mp hf
      obtain ⟨h, hh, rfl⟩ := List.mem_map.mp hg
      exact annotated_func hp (hp.methods c hmem h (mem_of_mem_exported hh)) (hp.types c hmem).2 false
        [c.name] _
    · obtain rfl := Option.some.inj hdecl
      exact ⟨rfl, by simp⟩
    · cases hdecl

theorem exists_readTypeAt {text : String} (h : p.Annotated params text) (place : String)
    (scope : List String) : ∃ t, Registry.readTypeAt place scope text = .ok t := by
  obtain ⟨e, rfl, hnamed, hcovers⟩ := h
  obtain ⟨u, hu, -⟩ := hcovers.parse hnamed
  refine ⟨Registry.convert scope u, ?_⟩
  unfold Registry.readTypeAt Registry.readType
  rw [hu]
  rfl

variable {implemented : String → Option Prim}

theorem exists_readFunc {f : Manifest.Func} (h : p.AnnotatedFunc params f) (owner : String)
    (receiver : Option Ty) (ownerParams : List String) :
    ∃ g, Registry.readFunc implemented owner receiver ownerParams f = .ok g :=
  exists_bind (exists_mapM fun text htext => exists_readTypeAt (h.params text htext) _ _) fun _ =>
    exists_bind (exists_readTypeAt h.returns _ _) fun _ => ⟨_, rfl⟩

theorem exists_readTypeDecl {d : Manifest.TypeDecl} (hbases : d.bases = [])
    (h : ∀ f ∈ d.methods, p.AnnotatedFunc (inScope d f) f) :
    ∃ x, Registry.readTypeDecl implemented d = .ok x := by
  rw [Registry.readTypeDecl, hbases]
  exact exists_bind ⟨[], rfl⟩ fun _ =>
    exists_bind (exists_mapM fun f hf => exists_readFunc (h f hf) _ _ _) fun _ => ⟨_, rfl⟩

theorem exists_load (hp : p.Portable) {r r' : Registry}
    (hadd : r.add { modules := [p.filled] } = .ok r') :
    ∃ host, r'.load implemented p.module = .ok host := by
  have hfind : r'.modules.find? (fun m => m.name == p.module) = some p.filled := by
    rw [Registry.add] at hadd
    split at hadd
    · cases hadd
    · rename_i hnew
      obtain rfl := Except.ok.inj hadd
      have hold : r.modules.find? (fun m => m.name == p.module) = none := by
        simpa [List.find?_eq_none, filled, Manifest.Module.withDefaults, moduleDecl] using hnew
      simp [List.find?_append, hold, filled, Manifest.Module.withDefaults, moduleDecl]
  rw [Registry.load, hfind]
  obtain ⟨host, hhost⟩ : ∃ host, (do
      let types ← p.filled.types.mapM (Registry.readTypeDecl implemented)
      let methods ← p.filled.methods.mapM (Registry.readMethodSet implemented)
      let extensions ← p.filled.extensions.mapM fun f =>
        Registry.readFunc implemented p.filled.name none [] { f with isStatic := true }
      return { name := p.filled.name, types, methods := methods.flatten, extensions } :
        Except LoadError HostModule) = .ok host :=
    exists_bind (exists_mapM fun d hd => exists_readTypeDecl (annotated_types hp d hd).1
      (annotated_types hp d hd).2) fun _ =>
        exists_bind ⟨[], rfl⟩ fun _ => exists_bind ⟨[], rfl⟩ fun _ => ⟨_, rfl⟩
  exact ⟨host, by dsimp only; rw [hhost]; rfl⟩

/-- The manifest of a portable package declares one module. Each type of a parameter or result in it can be
read, and names nothing but type parameters in scope, types without parameters that every program knows
and types that the module declares, with as many arguments as they have parameters. The module can be
loaded from every registry that the manifest was added to. -/
theorem manifest_closed {m : Manifest} (hm : p.manifest? = some m) (hp : p.Portable) :
    ∃ mod, m.modules = [mod] ∧ mod.name = p.module ∧
      (∀ d ∈ mod.types, d.bases = [] ∧ ∀ f ∈ d.methods, ∀ text ∈ f.returns :: f.params,
        ∃ e, TypeExpr.parse text = .ok e ∧ mod.Covers (inScope d f) e) ∧
      ∀ (r r' : Registry) (implemented : String → Option Prim), r.add m = .ok r' →
        ∃ host, r'.load implemented p.module = .ok host := by
  rw [manifest?] at hm
  split at hm
  · obtain rfl := Option.some.inj hm
    refine ⟨p.filled, rfl, rfl, fun d hd => ⟨(annotated_types hp d hd).1, fun f hf text htext => ?_⟩,
      fun r r' implemented hadd => exists_load hp hadd⟩
    have hfunc := (annotated_types hp d hd).2 f hf
    obtain ⟨e, rfl, hnamed, hcovers⟩ : p.Annotated (inScope d f) text := by
      rcases List.mem_cons.mp htext with rfl | htext
      · exact hfunc.returns
      · exact hfunc.params text htext
    exact hcovers.parse hnamed
  · cases hm

/-- A package with a structure, a generic type and a type made from a basic one. -/
def shapes : GoPackage where
  name := "shapes"
  path := "example.com/shapes"
  types := [
    { name := "Point", kind := .struct
      methods := [{ name := "Dist", params := [.named "Point" []], results := [.basic .float] }] },
    { name := "Box", kind := .struct, typeParams := ["T"]
      methods := [{ name := "Get", results := [.param "T", .error] }] },
    { name := "Celsius", kind := .defined (.basic .float) }]
  funcs := [
    { name := "New", params := [.basic .int, .basic .int], results := [.pointer (.named "Point" [])] },
    { name := "Wrap", typeParams := ["U"], params := [.slice (.param "U")], variadic := true
      results := [.named "Box" [.param "U"]] },
    { name := "Warm", params := [.named "Celsius" []], results := [.basic .bool] }]

theorem shapes_portable : shapes.Portable := by
  have hnamed : ∀ (scope : List String) (name : String) (args : List GoType) (d : GoTypeDecl),
      shapes.decl? name = some d → shapes.declShape d ≠ .other → args.length = d.typeParams.length →
      (∀ t ∈ args, shapes.Offers scope t) → shapes.Offers scope (.named name args) := by
    intro scope name args d hd hshape hcount hargs
    rw [Offers]
    refine ⟨⟨d, hd, ?_, hcount⟩, offersAll_iff.mpr hargs⟩
    rw [Shaped]
    split
    · trivial
    · exact fun _ => hshape
  have hpoint : ∀ scope, shapes.Offers scope (.named "Point" []) := fun scope =>
    hnamed scope "Point" [] _ rfl (by decide) rfl (by simp)
  have hcelsius : ∀ scope, shapes.Offers scope (.named "Celsius" []) := fun scope =>
    hnamed scope "Celsius" [] _ rfl (by decide) rfl (by simp)
  have hbox : shapes.Offers ["U"] (.named "Box" [.param "U"]) :=
    hnamed ["U"] "Box" [.param "U"] _ rfl (by decide) rfl (by simp [Offers])
  refine ⟨by decide, by decide, fun f hf => ?_, fun d hd f hf => ?_⟩
  · simp only [shapes, List.mem_cons, List.not_mem_nil, or_false] at hf
    rcases hf with rfl | rfl | rfl
    · refine ⟨by simp, by simp [OffersAll, Offers], ?_⟩
      rw [OffersAll, Offers]
      exact ⟨hpoint _, trivial⟩
    · exact ⟨by decide, by simp [OffersAll, Offers], by simp [OffersAll, hbox]⟩
    · exact ⟨by simp, by simp [OffersAll, hcelsius], by simp [OffersAll, Offers]⟩
  · simp only [shapes, List.mem_cons, List.not_mem_nil, or_false] at hd
    rcases hd with rfl | rfl | rfl
    · obtain rfl := List.mem_singleton.mp hf
      exact ⟨by simp, by simp [OffersAll, hpoint], by simp [OffersAll, Offers]⟩
    · obtain rfl := List.mem_singleton.mp hf
      exact ⟨by simp, by simp [OffersAll], by simp [OffersAll, Offers]⟩
    · cases hf

end GoPackage

end Scripting
