import Scripting.Proofs.Loops.Rounds

/-!
# Loops have the rounds that they should have

A loop that stands in some code, as `Walk.Stands` says, is exact in every run in which the code that can be
called leaves its hidden variables alone. The stores of the loop itself keep what is known of it, so it is
known in all states of a lap; from there the code of the loop is followed up to its next fork.
-/

namespace Scripting

namespace Walk

variable {w : Walk} {p : Post} {s : Series} {lap : Lap} {m m' m₀ : Machine} {f f' : Frame}
  {above above' : List Frame} {ws : List (List Nat)} {st : List Value} {v : Value} {i j n : Nat}

theorem Stands.distinct {pool : Array Value} {as : List Asm} (hw : w.Stands pool as) :
    (w.index.storage, w.index.index) ≠ (w.limit.storage, w.limit.index) ∧
      (w.index.storage, w.index.index) ≠ (w.item.storage, w.item.index) ∧
        (w.limit.storage, w.limit.index) ≠ (w.item.storage, w.item.index) := by
  have hapart := hw.apart
  simp only [List.pairwise_cons, List.mem_cons, List.not_mem_nil, or_false] at hapart
  exact ⟨hapart.1 _ (.inl rfl), hapart.1 _ (.inr rfl), hapart.2.1 _ rfl⟩

section

variable (hw : w.Stands p.pool p.asms) (hp : p.Sound) (hs : m.Stands ws) (hnext : m.next = .inl m')
include hw hp hs hnext

theorem Stands.starts (h : p.Holds m [] f w.firstAt) (hst : m.stack = v :: st)
    (h' : p.Holds m' above' f' j) : w.Keeps s ⟨v, none, []⟩ m' above' f' j := by
  obtain ⟨m'', f'', hnext'', hholds, -, hvalue, -⟩ := h.declare hp hs hw.first hst
  obtain rfl := Sum.inl.inj (hnext''.symm.trans hnext)
  obtain ⟨rfl, rfl, rfl⟩ := hholds.unique hp h'
  refine .opens (Nat.lt_succ_self _) w.firstAt_lt hvalue rfl fun hrange => ⟨rfl, fun hi => ?_⟩
  have hbetween := (hw.zero hrange).1
  unfold secondAt at hi
  omega

theorem Keeps.second (hk : w.Keeps s lap m [] f w.secondAt)
    (hover : Lap.Over w.isRange { lap with second := some v } s)
    (h : p.Holds m [] f w.secondAt) (hst : m.stack = v :: st) (h' : p.Holds m' above' f' j) :
    w.Keeps s { lap with second := some v } m' above' f' j := by
  obtain ⟨m'', f'', hnext'', hholds, -, hvalue, hothers⟩ := h.declare hp hs hw.second hst
  obtain rfl := Sum.inl.inj (hnext''.symm.trans hnext)
  obtain ⟨rfl, rfl, rfl⟩ := hholds.unique hp h'
  have hdistinct := hw.distinct.1
  cases hk with
  | turns _ hplace =>
    -- No round is under way before the second store.
    have hplaces := w.places
    generalize hi : w.secondAt = i at hplace
    cases hplace <;> omega
  | opens _ _ held items zero =>
    have htest : ∀ n, lap.items.length = n →
        w.Place s { lap with second := some v } m'' n w.testAt := fun n hn =>
      .test (t := m''.stack) (d := 0) (Nat.zero_le _) (by cases s <;> rfl) hn
    have hvars : m''.valueOf f' w.index = some (.int (s.index 0)) ∧ m''.valueOf f' w.limit = some s.limit := by
      cases s with
      | range a b =>
        obtain ⟨hr, hfirst, hlimit⟩ := hover
        have hindex : (Series.range a b).index 0 = a := by
          unfold Series.index
          rw [Int.natCast_zero, Int.add_zero]
          exact Int64.ofInt_toInt a
        rw [Walk.first, if_pos hr, show lap.first = .int a from hfirst] at held
        rw [Walk.second, if_pos hr, hlimit v rfl] at hvalue
        rw [Walk.second, if_pos hr] at hothers
        rw [hindex]
        exact ⟨hothers _ _ hdistinct hw.plain.1 held, hvalue⟩
      | array r =>
        obtain ⟨hr, hfirst⟩ := hover
        have hrange : ¬ w.isRange = true := by
          rw [hr]
          nofun
        obtain ⟨st', hzero⟩ := (zero hr).2 rfl
        obtain ⟨rfl, -⟩ := List.cons.inj (hst.symm.trans hzero)
        rw [Walk.first, if_neg hrange, show lap.first = .array r from hfirst] at held
        rw [Walk.second, if_neg hrange] at hvalue hothers
        exact ⟨hvalue, hothers _ _ hdistinct.symm hw.plain.2 held⟩
    refine .turns (n := 0) ⟨hvars.1, hvars.2, ?_, fun a b _ => ?_⟩ (htest 0 (by rw [items]; rfl))
    · rw [items, List.length_nil, Int.natCast_zero, Int.add_zero]
      cases s with
      | range a b => exact a.toInt_lt
      | array r => exact (by decide : (0 : Int) < 2 ^ 63)
    · rw [items]
      exact List.nil_prefix

omit hw hp hs hnext in
theorem Keeps.holds_item (hr : w.isRange = s.isRange) (hk : w.Keeps s lap m above f w.itemAt) :
    ∃ v st, m.stack = v :: st ∧ s.item? m.world.heap lap.items.length = some v := by
  have hplaces := w.places
  generalize hi : w.itemAt = i at hk
  cases hk with
  | opens => omega
  | @turns n hturning hplace =>
    cases hplace with
    | test => omega
    | body => omega
    | count => omega
    | back => omega
    | @head d st _ _ hmore htop hitems =>
      obtain rfl : d = w.test.length + w.head.length := by omega
      obtain ⟨v, hv⟩ := Option.isSome_iff_exists.mp hmore
      have hwork : s.work m.world.heap n (w.test.length + w.head.length) = [v] := by
        unfold test head
        cases s <;> rw [hr] <;> exact congrArg Option.toList hv
      exact ⟨v, st, by rw [htop, hwork]; rfl, hitems ▸ hv⟩

theorem Keeps.item (hr : w.isRange = s.isRange) (hk : w.Keeps s lap m [] f w.itemAt)
    (h : p.Holds m [] f w.itemAt)
    (hst : m.stack = v :: st) (h' : p.Holds m' above' f' j) :
    s.item? m.world.heap lap.items.length = some v ∧ m'.valueOf f' w.item = some v ∧
      w.Keeps s { lap with items := lap.items ++ [v] } m' above' f' j := by
  obtain ⟨u, st', htop, hu⟩ := hk.holds_item hr
  obtain ⟨rfl, -⟩ := List.cons.inj (hst.symm.trans htop)
  obtain ⟨m'', f'', hnext'', hholds, -, hvalue, hothers⟩ := h.declare hp hs hw.item hst
  obtain rfl := Sum.inl.inj (hnext''.symm.trans hnext)
  obtain ⟨rfl, rfl, rfl⟩ := hholds.unique hp h'
  obtain ⟨-, hindex, hlimit⟩ := hw.distinct
  have hplaces := w.places
  have hbody : w.bodyAt = w.itemAt + 1 := rfl
  generalize hi : w.itemAt = i at hk
  cases hk with
  | opens => omega
  | @turns n hturning hplace =>
    have hitems : lap.items.length = n := by
      cases hplace with
      | test _ _ hitems => exact hitems
      | head _ _ _ _ hitems => exact hitems
      | body => omega
      | count => omega
      | back hitems => exact hitems
    have hlength : (lap.items ++ [v]).length = n + 1 := by
      rw [List.length_append, hitems, List.length_singleton]
    rw [hitems] at hu
    refine ⟨hitems ▸ hu, hvalue, .turns (n := n) ⟨hothers _ _ hindex hw.plain.1 hturning.index,
      hothers _ _ hlimit hw.plain.2 hturning.limit, ?_, fun a b hs => ?_⟩ ?_⟩
    · show s.base + ((lap.items ++ [v]).length : Nat) < 2 ^ 63
      rw [hlength]
      exact Series.room (h := m.world.heap) (Option.isSome_iff_exists.mpr ⟨v, hu⟩)
    · subst hs
      obtain ⟨rest, hrest⟩ := hturning.exact a b rfl
      have hat : (Series.integers a b)[n]? = some v := hu
      rw [← hrest, ← hitems, List.getElem?_append_right (Nat.le_refl _), Nat.sub_self] at hat
      obtain ⟨rest', rfl⟩ := List.head?_eq_some_iff.mp (List.head?_eq_getElem?.trans hat)
      exact ⟨rest', by rw [← hrest, List.append_assoc]; rfl⟩
    · rw [← hi, ← hbody]
      rcases Nat.lt_or_eq_of_le w.bodyAt_le with hlt | heq
      · exact .body (Nat.le_refl _) hlt hlength
      · rw [heq]
        exact .count (t := m''.stack) (d := 0) (Nat.zero_le _) rfl hlength

end

theorem Place.low (h : w.Place s lap m n i) : w.testAt ≤ i := by
  have hplaces := w.places
  cases h <;> omega

theorem Keeps.stays {g : Frame} (hk : w.Keeps s lap m (g :: above) f i)
    (hwithin : w.Within p m (g :: above) f i)
    (hkeep : ∀ x v, x = w.index ∨ x = w.limit → m.valueOf f x = some v → m'.valueOf f x = some v) :
    w.Keeps s lap m' above' f i := by
  cases hk with
  | opens low high held items zero =>
    refine .opens low high (hkeep _ _ ?_ held) items fun hr => nomatch (zero hr).1
    unfold Walk.first
    split
    · exact .inl rfl
    · exact .inr rfl
  | turns hturning hplace =>
    have hlow := hplace.low
    have hsecond := w.secondAt_lt
    have hcalled := hwithin.called nofun
    exact .turns (hturning.kept hkeep) (hplace.outside (by omega) (by omega))

section

variable (hw : w.Stands p.pool p.asms) (hp : p.Sound) (hchecked : Checked m₀)
  (hquiet : ∀ n m, m₀.after n = .inl m → w.Quiet m)
include hw hp hchecked hquiet

theorem Runs.kept (h : w.Runs p m₀ m lap) (hover : lap.Over w.isRange s) : ∃ above f i,
    w.Within p m above f i ∧ (∀ k ∈ above, w.Spared k.chunk) ∧ w.Keeps s lap m above f i := by
  have hunder : ∀ {m lap}, w.Runs p m₀ m lap → _ := fun h => h.under hw hp hchecked
  induction h with
  | start hreached hstops hst hnext =>
    obtain ⟨ws, hs⟩ := hchecked _ _ hreached
    obtain ⟨-, above', f', i', hwithin, -⟩ := hunder (.start hreached hstops hst hnext)
    obtain ⟨f, hholds⟩ := hstops
    exact ⟨above', f', i', hwithin, hholds.calls hp hs hnext hwithin.holds (hquiet _ _ hreached),
      hw.starts hp hs hnext hholds hst hwithin.holds⟩
  | @second m m' lap v st hbefore hstops hst hnext ih =>
    obtain ⟨⟨n, hreached⟩, above₀, f₀, i₀, hwithin₀, htimely⟩ := hunder hbefore
    obtain ⟨ws, hs⟩ := hchecked _ _ hreached
    obtain ⟨-, above', f', i', hwithin', -⟩ := hunder (.second hbefore hstops hst hnext)
    obtain ⟨f, hholds⟩ := hstops
    obtain ⟨rfl, rfl, rfl⟩ := hholds.unique hp hwithin₀.holds
    rw [Timely, if_pos (Nat.le_refl _)] at htimely
    have hover₀ : lap.Over w.isRange s := by
      cases s with
      | range a b =>
        obtain ⟨hr, hfirst, -⟩ := hover
        refine ⟨hr, hfirst, fun u hu => ?_⟩
        rw [htimely.1] at hu
        cases hu
      | array r => exact hover
    obtain ⟨above, f, i, hwithin, -, hk⟩ := ih hover₀
    obtain ⟨rfl, rfl, rfl⟩ := hholds.unique hp hwithin.holds
    exact ⟨above', f', i', hwithin', hholds.calls hp hs hnext hwithin'.holds (hquiet _ _ hreached),
      hk.second hw hp hs hnext hover hholds hst hwithin'.holds⟩
  | @item m m' lap v st hbefore hstops hst hnext ih =>
    obtain ⟨⟨n, hreached⟩, -⟩ := hunder hbefore
    obtain ⟨ws, hs⟩ := hchecked _ _ hreached
    obtain ⟨-, above', f', i', hwithin', -⟩ := hunder (.item hbefore hstops hst hnext)
    obtain ⟨f₀, hholds⟩ := hstops
    have hover₀ : lap.Over w.isRange s := by
      cases s <;> exact hover
    obtain ⟨above, f, i, hwithin, -, hk⟩ := ih hover₀
    obtain ⟨rfl, rfl, rfl⟩ := hholds.unique hp hwithin.holds
    exact ⟨above', f', i', hwithin', hholds.calls hp hs hnext hwithin'.holds (hquiet _ _ hreached),
      (hk.item hw hp hs hnext hover.isRange hholds hst hwithin'.holds).2.2⟩
  | @other m m' lap hbefore hnotSecond hnotItem hnext hin ih =>
    obtain ⟨⟨n, hreached⟩, -⟩ := hunder hbefore
    obtain ⟨ws, hs⟩ := hchecked _ _ hreached
    obtain ⟨above, f, i, hwithin, hspared, hk⟩ := ih hover
    obtain ⟨above', f', j, hwithin', hplace⟩ := hwithin.next hw hp hs hnext hin
    cases above with
    | nil =>
      obtain ⟨hne, -⟩ | ⟨-, hleads⟩ := hplace
      · exact absurd rfl hne
      · refine ⟨above', f', j, hwithin', hwithin.holds.calls hp hs hnext hwithin'.holds (hquiet _ _ hreached),
          hk.steps hw hp hs hnext hover.isRange hwithin ?_ ?_ hwithin' hleads⟩
        · rintro rfl
          exact hnotSecond ⟨f, hwithin.holds⟩
        · rintro rfl
          exact hnotItem ⟨f, hwithin.holds⟩
    | cons g above =>
      obtain ⟨above'', hholds, hspared', hkeep⟩ := hwithin.holds.next_above hs hnext hspared
        (hquiet _ _ hreached)
      obtain ⟨rfl, rfl, rfl⟩ := hholds.unique hp hwithin'.holds
      refine ⟨above', f', j, hwithin', hspared', hk.stays hwithin fun x v hx hv => hkeep x v
        (fun c hc => ?_) ?_ hv⟩
      · rcases hx with rfl | rfl
        · exact hc.1
        · exact hc.2
      · rcases hx with rfl | rfl
        · exact hw.plain.1
        · exact hw.plain.2

theorem Runs.known (h : w.Runs p m₀ m lap) (hover : lap.Over w.isRange s) (hholds : p.Holds m [] f i) :
    (∃ n, m₀.after n = .inl m) ∧ w.Within p m [] f i ∧ w.Keeps s lap m [] f i := by
  obtain ⟨hreached, -⟩ := h.under hw hp hchecked
  obtain ⟨above, f', i', hwithin, -, hk⟩ := h.kept hw hp hchecked hquiet hover
  obtain ⟨rfl, rfl, rfl⟩ := hholds.unique hp hwithin.holds
  exact ⟨hreached, hwithin, hk⟩

omit hw hchecked hquiet in
theorem Runs.turn (h : w.Runs p m₀ m lap) (hholds : p.Holds m [] f i) (hsecond : i ≠ w.secondAt)
    (hitem : i ≠ w.itemAt) (hturns : p.Turns m f st j m') (hlow : w.firstAt < j) (hhigh : j < w.exitAt) :
    w.Runs p m₀ m' lap := by
  have hne : ∀ {k}, p.Stops m k → i = k := fun ⟨_, hk⟩ => (hk.unique hp hholds).2.2
  exact .other h (fun hk => hsecond (hne hk)) (fun hk => hitem (hne hk)) hturns.next
    (inside_of_holds hturns.holds hlow hhigh)

theorem Runs.advances (hover : lap.Over w.isRange s) : (k : Nat) → {d : Nat} → {m : Machine} → {f : Frame} →
    w.Runs p m₀ m lap → p.Holds m [] f (w.testAt + d) → d + k < w.round.length →
      (d + k ≤ w.test.length ∨ w.test.length < d) → ∃ m' f', m.after k = .inl m' ∧ w.Runs p m₀ m' lap ∧
        p.Holds m' [] f' (w.testAt + (d + k)) ∧ m'.world = m.world
  | 0, _, m, f, h, hholds, _, _ => ⟨m, f, rfl, h, hholds, rfl⟩
  | k + 1, d, m, f, h, hholds, hlt, hpart => by
    obtain ⟨⟨n₀, hreached⟩, hwithin, hk⟩ := h.known hw hp hchecked hquiet hover hholds
    obtain ⟨ws, hs⟩ := hchecked _ _ hreached
    have hplaces := w.places
    have hlater : ∀ {m' st}, p.Turns m f st (w.testAt + d + 1) m' → ∃ m' f', m.after (k + 1) = .inl m' ∧
        w.Runs p m₀ m' lap ∧ p.Holds m' [] f' (w.testAt + (d + (k + 1))) ∧ m'.world = m.world := by
      intro m₁ st hturns
      obtain ⟨m', f', hafter, hruns, hholds', hworld⟩ := Runs.advances hover k (d := d + 1)
        (h.turn hp hholds (by omega) (by omega) hturns (by omega) (by omega)) hturns.holds (by omega) (by omega)
      refine ⟨m', f', ?_, hruns, ?_, hworld.trans hturns.world⟩
      · rw [Machine.after, hturns.next]
        exact hafter
      · rwa [Nat.add_assoc, Nat.add_comm 1 k] at hholds'
    generalize hi : w.testAt + d = i at hk
    cases hk with
    | opens => omega
    | @turns n hturning hplace =>
      have hroom := hturning.room
      cases hplace with
      | body => omega
      | count => omega
      | back => omega
      | @test d' st hd' htop hitems =>
        obtain rfl : d = d' := by omega
        rw [hitems] at hroom
        obtain ⟨m', hturns⟩ := hw.works hp hs hturning.index hturning.limit hover.isRange hroom hholds
          (by omega)
          (by omega) (fun hgt => absurd hgt (by omega)) htop
        exact hlater hturns
      | @head d' st hbehind hd' hmore htop hitems =>
        obtain rfl : d = d' := by omega
        rw [hitems] at hroom
        obtain ⟨m', hturns⟩ := hw.works hp hs hturning.index hturning.limit hover.isRange hroom hholds
          (by omega)
          (by omega) (fun _ => hmore) htop
        exact hlater hturns

theorem Runs.decides (h : w.Runs p m₀ m lap) (hover : lap.Over w.isRange s)
    (hholds : p.Holds m [] f w.checkAt) :
    ∃ m', m.next = .inl m' ∧ m'.world = m.world ∧
      if (s.item? m.world.heap lap.items.length).isSome then
        w.Runs p m₀ m' lap ∧ p.Stops m' (w.checkAt + 1)
      else p.Stops m' w.exitAt := by
  obtain ⟨⟨n₀, hreached⟩, hwithin, hk⟩ := h.known hw hp hchecked hquiet hover hholds
  obtain ⟨ws, hs⟩ := hchecked _ _ hreached
  have hplaces := w.places
  generalize hi : w.checkAt = i at hk
  cases hk with
  | opens => omega
  | @turns n hturning hplace =>
    cases hplace with
    | head => omega
    | body => omega
    | count => omega
    | back => omega
    | @test d st hd htop hitems =>
      obtain rfl : d = w.test.length := by omega
      have hbool : m.stack = .bool (s.item? m.world.heap n).isSome :: st := by
        rw [htop, test, hover.isRange]
        cases s <;> rfl
      obtain ⟨m', hturns⟩ := hw.checks hp hs hholds hbool
      rw [hitems, ← hi]
      refine ⟨m', hturns.next, hturns.world, ?_⟩
      cases hmore : (s.item? m.world.heap n).isSome with
      | false =>
        rw [hmore] at hturns
        rw [if_neg Bool.false_ne_true]
        exact ⟨_, hturns.holds⟩
      | true =>
        rw [hmore, if_pos rfl] at hturns
        rw [if_pos rfl]
        exact ⟨h.turn hp hholds (by omega) (by omega) hturns (by omega) (by omega), _, hturns.holds⟩

theorem Runs.adds (hover : lap.Over w.isRange s) : (k : Nat) → {d : Nat} → {m : Machine} → {f : Frame} →
    w.Runs p m₀ m lap → p.Holds m [] f (w.stepAt + d) → d + k ≤ 3 → ∃ m' f', m.after k = .inl m' ∧
      w.Runs p m₀ m' lap ∧ p.Holds m' [] f' (w.stepAt + (d + k)) ∧ m'.budget = m.budget
  | 0, _, m, f, h, hholds, _ => ⟨m, f, rfl, h, hholds, rfl⟩
  | k + 1, d, m, f, h, hholds, hle => by
    obtain ⟨⟨n₀, hreached⟩, hwithin, hk⟩ := h.known hw hp hchecked hquiet hover hholds
    obtain ⟨ws, hs⟩ := hchecked _ _ hreached
    have hplaces := w.places
    have hback : ∀ n, p.asms[w.stepAt + d]? ≠ some (.back n) := by
      intro n hn
      have hat := hw.count_at hn (Nat.le_add_right _ _) (by omega)
      rw [Nat.add_sub_cancel_left] at hat
      have hlt : d < 3 := by omega
      match d, hlt with
      | 0, _ | 1, _ | 2, _ => cases hat
    generalize hi : w.stepAt + d = i at hk
    cases hk with
    | opens => omega
    | @turns n hturning hplace =>
      cases hplace with
      | test => omega
      | head => omega
      | body => omega
      | back => omega
      | @count d' st hd' htop hitems =>
        obtain rfl : d = d' := by omega
        obtain ⟨m₁, hturns⟩ := hw.counts hp hs hturning.index hholds (by omega) htop
        obtain ⟨m', f', hafter, hruns, hholds', hbudget⟩ := Runs.adds hover k (d := d + 1)
          (h.turn hp hholds (by omega) (by omega) hturns (by omega) (by omega)) hturns.holds (by omega)
        refine ⟨m', f', ?_, hruns, ?_, hbudget.trans (hholds.budget hp hs hturns.next hback)⟩
        · rw [Machine.after, hturns.next]
          exact hafter
        · rwa [Nat.add_assoc, Nat.add_comm 1 k] at hholds'

theorem Runs.stores (h : w.Runs p m₀ m lap) (hover : lap.Over w.isRange s)
    (hholds : p.Holds m [] f (w.stepAt + 3)) :
    ∃ m', m.next = .inl m' ∧ w.Runs p m₀ m' lap ∧ p.Stops m' (w.stepAt + 4) ∧ m'.budget = m.budget := by
  obtain ⟨⟨n₀, hreached⟩, hwithin, hk⟩ := h.known hw hp hchecked hquiet hover hholds
  obtain ⟨ws, hs⟩ := hchecked _ _ hreached
  have hplaces := w.places
  have hstore := hw.count 3 _ rfl
  generalize hi : w.stepAt + 3 = i at hk
  cases hk with
  | opens => omega
  | @turns n hturning hplace =>
    cases hplace with
    | test => omega
    | head => omega
    | body => omega
    | back => omega
    | @count d st hd htop hitems =>
      obtain rfl : d = 3 := by omega
      obtain ⟨m', f', hnext, hholds', -⟩ := hholds.declare hp hs hstore htop
      have hne : ∀ {k}, p.Stops m k → w.stepAt + 3 = k := fun ⟨_, hk⟩ => (hk.unique hp hholds).2.2
      refine ⟨m', hnext, .other h (fun hk => ?_) (fun hk => ?_) hnext
        (inside_of_holds hholds' (by omega) (by omega)), ⟨f', hholds'⟩, hholds.budget hp hs hnext
          fun n hn => ?_⟩
      · have := hne hk
        omega
      · have := hne hk
        omega
      · cases hstore.symm.trans hn

theorem Runs.steps (h : w.Runs p m₀ m lap) (hover : lap.Over w.isRange s) (hstops : p.Stops m w.stepAt) :
    if m.budget = 0 then ∃ n d m', m.after n = .inr (.failed d, m')
    else ∃ n m', m.after n = .inl m' ∧ p.Stops m' w.testAt ∧ w.Runs p m₀ m' lap := by
  obtain ⟨f, hholds⟩ := hstops
  obtain ⟨m₃, f₃, hafter, hruns₃, hholds₃, hbudget₃⟩ :=
    h.adds hw hp hchecked hquiet hover 3 (d := 0) hholds (Nat.le_refl _)
  obtain ⟨m₄, hnext, hruns₄, ⟨f₄, hholds₄⟩, hbudget₄⟩ := hruns₃.stores hw hp hchecked hquiet hover hholds₃
  obtain ⟨⟨n₀, hreached⟩, -⟩ := hruns₄.known hw hp hchecked hquiet hover hholds₄
  obtain ⟨ws, hs⟩ := hchecked _ _ hreached
  have hlast : ∀ n, m.after (3 + (1 + n)) = m₄.after n := fun n => by
    rw [Machine.after_add hafter, Nat.add_comm 1 n, Machine.after, hnext]
  have hbudget : m₄.budget = m.budget := hbudget₄.trans hbudget₃
  have hback := hw.count 4 _ rfl
  split
  · rename_i hzero
    obtain ⟨d, m', hfails⟩ := hholds₄.jump_fails hp hs hback (hbudget.trans hzero)
    refine ⟨3 + (1 + 1), d, m', ?_⟩
    rw [hlast, Machine.after, hfails]
  · rename_i hsome
    obtain ⟨b, hb⟩ := Nat.exists_eq_succ_of_ne_zero hsome
    obtain ⟨m', hturns⟩ := hholds₄.jump hp hs hback (hbudget.trans hb)
    have hplaces := w.places
    have hplace : w.stepAt + 4 - (w.exitAt - 1 - w.testAt) = w.testAt := by omega
    rw [hplace] at hturns
    refine ⟨3 + (1 + 1), m', ?_, ⟨_, hturns.holds⟩,
      hruns₄.turn hp hholds₄ (by omega) (by omega) hturns (by omega) (by omega)⟩
    rw [hlast, Machine.after, hturns.next]
    rfl

omit hquiet in
theorem Stands.opens (hreached : m₀.after n = .inl m) (hstops : p.Stops m w.firstAt) :
    ∃ v m', m.stack.head? = some v ∧ m.next = .inl m' ∧ p.Stops m' (w.firstAt + 1) ∧
      w.Runs p m₀ m' ⟨v, none, []⟩ := by
  obtain ⟨f, hholds⟩ := hstops
  obtain ⟨ws, hs⟩ := hchecked _ _ hreached
  obtain ⟨v, st, hst⟩ := stored_value hp hs hholds hw.first
  obtain ⟨m', f', hnext, hholds', -⟩ := hholds.declare hp hs hw.first hst
  exact ⟨v, m', hst ▸ rfl, hnext, ⟨f', hholds'⟩, .start hreached ⟨f, hholds⟩ hst hnext⟩

omit hquiet in
theorem Runs.enters (h : w.Runs p m₀ m lap) (hstops : p.Stops m w.secondAt) :
    ∃ v m', m.stack.head? = some v ∧ m.next = .inl m' ∧ p.Stops m' w.testAt ∧
      w.Runs p m₀ m' { lap with second := some v } := by
  obtain ⟨f, hholds⟩ := hstops
  obtain ⟨⟨n, hreached⟩, -⟩ := h.under hw hp hchecked
  obtain ⟨ws, hs⟩ := hchecked _ _ hreached
  obtain ⟨v, st, hst⟩ := stored_value hp hs hholds hw.second
  obtain ⟨m', f', hnext, hholds', -⟩ := hholds.declare hp hs hw.second hst
  exact ⟨v, m', hst ▸ rfl, hnext, ⟨f', hholds'⟩, .second h ⟨f, hholds⟩ hst hnext⟩

theorem Runs.tests (h : w.Runs p m₀ m lap) (hover : lap.Over w.isRange s) (hstops : p.Stops m w.testAt) :
    match s.item? m.world.heap lap.items.length with
    | some v => ∃ n m' f, m.after n = .inl m' ∧ p.Holds m' [] f w.bodyAt ∧
        m'.valueOf f w.item = some v ∧ w.Runs p m₀ m' { lap with items := lap.items ++ [v] }
    | none => ∃ n m', m.after n = .inl m' ∧ p.Stops m' w.exitAt := by
  obtain ⟨f, hholds⟩ := hstops
  have hround : w.round.length = w.test.length + 1 + w.head.length := by
    rw [round, List.length_append, List.length_cons]
    omega
  have hhead : 0 < w.head.length := by
    unfold head
    rw [List.length_append]
    exact Nat.lt_add_left _ (Nat.lt_succ_self 0)
  obtain ⟨m₁, f₁, hafter₁, hruns₁, hholds₁, hworld₁⟩ :=
    h.advances hw hp hchecked hquiet hover w.test.length (d := 0) hholds (by omega) (.inl (by omega))
  rw [Nat.zero_add, ← checkAt_eq] at hholds₁
  obtain ⟨m₂, hnext₂, hworld₂, hdecides⟩ := hruns₁.decides hw hp hchecked hquiet hover hholds₁
  have hafter₂ : m.after (w.test.length + 1) = .inl m₂ := after_next hafter₁ hnext₂
  rw [hworld₁] at hdecides hworld₂
  split
  · rename_i v hv
    rw [hv, Option.isSome_some, if_pos rfl] at hdecides
    obtain ⟨hruns₂, f₂, hholds₂⟩ := hdecides
    rw [checkAt_eq, Nat.add_assoc] at hholds₂
    obtain ⟨m₃, f₃, hafter₃, hruns₃, hholds₃, hworld₃⟩ := hruns₂.advances hw hp hchecked hquiet hover
      (w.head.length - 1) hholds₂ (by omega) (.inr (Nat.lt_succ_self _))
    have hplace : w.testAt + (w.test.length + 1 + (w.head.length - 1)) = w.itemAt := by
      rw [itemAt_eq, checkAt_eq]
      omega
    rw [hplace] at hholds₃
    obtain ⟨⟨n₀, hreached⟩, -, hk⟩ := hruns₃.known hw hp hchecked hquiet hover hholds₃
    obtain ⟨ws, hs⟩ := hchecked _ _ hreached
    obtain ⟨u, st, hst, -⟩ := hk.holds_item hover.isRange
    obtain ⟨m₄, f₄, hnext₄, hholds₄, -⟩ := hholds₃.declare hp hs hw.item hst
    obtain ⟨hitem, hvalue, -⟩ := hk.item hw hp hs hnext₄ hover.isRange hholds₃ hst hholds₄
    rw [hworld₃, hworld₂, hv] at hitem
    obtain rfl := Option.some.inj hitem
    refine ⟨w.test.length + 1 + (w.head.length - 1 + 1), m₄, f₄, ?_, hholds₄, hvalue,
      .item hruns₃ ⟨f₃, hholds₃⟩ hst hnext₄⟩
    rw [Machine.after_add hafter₂]
    exact after_next hafter₃ hnext₄
  · rename_i hnone
    rw [hnone, Option.isSome_none, if_neg Bool.false_ne_true] at hdecides
    exact ⟨_, m₂, hafter₂, hdecides⟩

theorem Runs.counts {a b : Int64} (h : w.Runs p m₀ m lap) (hover : lap.Over w.isRange (.range a b)) :
    lap.items <+: Series.integers a b := by
  obtain ⟨_, _, _, -, -, hk⟩ := h.kept hw hp hchecked hquiet hover
  cases hk with
  | opens _ _ _ items =>
    rw [items]
    exact List.nil_prefix
  | turns hturning => exact hturning.exact a b rfl

theorem Runs.leaves (h : w.Runs p m₀ m lap) (hover : lap.Over w.isRange s) (hnext : m.next = .inl m')
    (hout : ¬ w.Inside p m') : ∃ i, p.Stops m i ∧
      (i = w.checkAt ∧ p.Stops m' w.exitAt ∧ s.item? m.world.heap lap.items.length = none ∨
        (w.firstAt < i ∧ i < w.secondAt) ∨ (w.bodyAt ≤ i ∧ i < w.stepAt)) := by
  obtain ⟨⟨n, hreached⟩, above, f, i, hwithin, -⟩ := h.under hw hp hchecked
  obtain ⟨ws, hs⟩ := hchecked _ _ hreached
  have hplaces := w.places
  have hlow := hwithin.low
  have hhigh := hwithin.high
  cases above with
  | cons g above =>
    obtain ⟨above', hholds, -, -⟩ := hwithin.holds.next_above (P := fun _ => True) hs hnext
      (fun _ _ => trivial) fun _ _ _ _ _ _ _ _ _ => trivial
    exact absurd (inside_of_holds hholds hlow hhigh) hout
  | nil =>
    refine ⟨i, ⟨f, hwithin.holds⟩, ?_⟩
    rcases hwithin.steps hw hp hs hnext with ⟨above', f', j, hleads, hholds, -⟩ |
      ⟨-, ⟨rfl, hexit⟩ | hbound | hbody⟩
    · have hj : ¬ (w.firstAt < j ∧ j < w.exitAt) := fun hj => hout (inside_of_holds hholds hj.1 hj.2)
      unfold Leads at hleads
      split at hleads
      · exact .inr (.inl ⟨hlow, ‹_›⟩)
      · split at hleads
        · omega
        · split at hleads
          · omega
          · split at hleads
            · omega
            · split at hleads <;> omega
    · refine .inl ⟨rfl, hexit, ?_⟩
      obtain ⟨m'', hnext'', -, hdecides⟩ := h.decides hw hp hchecked hquiet hover hwithin.holds
      obtain rfl := Sum.inl.inj (hnext''.symm.trans hnext)
      split at hdecides
      · obtain ⟨-, f', hholds⟩ := hdecides
        exact absurd (inside_of_holds hholds (by omega) (by omega)) hout
      · rename_i hnone
        exact Option.not_isSome_iff_eq_none.mp hnone
    · exact .inr (.inl hbound)
    · exact .inr (.inr ⟨hbody.1, hbody.2.1⟩)

theorem Runs.completes {a b : Int64} (h : w.Runs p m₀ m lap) (hover : lap.Over w.isRange (.range a b))
    (hnext : m.next = .inl m') (hstops : p.Stops m w.checkAt) (hexit : p.Stops m' w.exitAt) :
    lap.items = Series.integers a b := by
  obtain ⟨f, hholds⟩ := hstops
  obtain ⟨m'', hnext'', -, hdecides⟩ := h.decides hw hp hchecked hquiet hover hholds
  obtain rfl := Sum.inl.inj (hnext''.symm.trans hnext)
  split at hdecides
  · obtain ⟨-, f₁, hholds₁⟩ := hdecides
    obtain ⟨f₂, hholds₂⟩ := hexit
    have hplace := (hholds₁.unique hp hholds₂).2.2
    have hplaces := w.places
    omega
  · rename_i hnone
    have hlength := List.getElem?_eq_none_iff.mp (Option.not_isSome_iff_eq_none.mp hnone)
    exact (h.counts hw hp hchecked hquiet hover).eq_of_length_le hlength

/-- A loop whose code stands in checked code is exact, if the code that can be called leaves its hidden
variables alone. -/
theorem Stands.exact (hstart : ∀ f ∈ m₀.frames, f.ip = 0) : w.Exact p m₀ where
  entered _ _ hreached hin := Runs.of_inside hw hp hchecked hstart hreached hin
  opens _ _ hreached hstops := hw.opens hp hchecked hreached hstops
  enters _ _ h hstops := h.enters hw hp hchecked hstops
  tests _ _ _ h hover hstops := h.tests hw hp hchecked hquiet hover hstops
  begins _ _ _ h hnext hstops := h.begins hw hp hchecked hnext hstops
  bodies _ _ _ _ h hstops hlow hhigh hnext := h.bodies hw hp hchecked hstops hlow hhigh hnext
  steps _ _ _ h hover hstops := h.steps hw hp hchecked hquiet hover hstops
  counts _ _ _ _ h hover := h.counts hw hp hchecked hquiet hover
  leaves _ _ _ _ h hover hnext hout := h.leaves hw hp hchecked hquiet hover hnext hout
  completes _ _ _ _ _ h hover hnext hstops hexit := h.completes hw hp hchecked hquiet hover hnext hstops hexit

end

end Walk

end Scripting
