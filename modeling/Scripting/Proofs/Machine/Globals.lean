import Scripting.Proofs.Machine.Ending

/-!
# Stores into global slots

`May i v` says which values may be stored into which global slot. Code minds it if each store goes to a
slot that takes any value, or comes right behind a constant that the slot takes, with no jump between
the two. A slot that holds what it may hold does so until the run of such code ends
(`Machine.Ends.has`), and slots that a script stores first hold it in the end (`Machine.Ends.fills`).
-/

namespace Scripting

/-!
## One way to read a chunk

Checked code can be read back from its bytes in one way only: `Listing.Sound.asms_eq`. So what holds of
the code that was generated for a function holds of the code that a frame of it is known to stand in.
-/

theorem Opcode.eq_of_byte {c d : Opcode} (h : c.byte = d.byte) : c = d := by
  have hc := Opcode.ofByte?_byte c
  rw [h, Opcode.ofByte?_byte] at hc
  exact (Option.some.inj hc).symm

theorem Assembly.getElem?_decodedFrom {start : Nat → Nat} : (code : Assembly) → (k i : Nat) →
    (decodedFrom start k code)[i]? = (code[i]?).map fun l => l.asm.decoded start (k + i)
  | [], _, _ => rfl
  | _ :: _, _, 0 => rfl
  | _ :: code, k, i + 1 => by
    rw [decodedFrom, List.getElem?_cons_succ, List.getElem?_cons_succ, getElem?_decodedFrom code,
      Nat.add_assoc, Nat.add_comm 1]

namespace Listing

def asms (L : Listing) : List Asm := L.code.map (·.asm)

theorem getElem?_asms {L : Listing} {i : Nat} {l : Asm.Line} (h : L.code[i]? = some l) :
    L.asms[i]? = some l.asm := by
  rw [asms, List.getElem?_map, h, Option.map_some]

theorem exists_of_asms {L : Listing} {i : Nat} {a : Asm} (h : L.asms[i]? = some a) :
    ∃ l, L.code[i]? = some l ∧ l.asm = a := by
  rw [asms, List.getElem?_map] at h
  exact Option.map_eq_some_iff.mp h

namespace Sound

variable {L L' : Listing}

theorem start_lt_start (h : L.Sound) {i j : Nat} (hij : i < j) (hj : j < L.code.length) :
    L.code.start i < L.code.start j := by
  rw [(Exec.start_fits h (by omega)).1, (Exec.start_fits h (Nat.le_of_lt hj)).1]
  exact Assembly.offset_lt_offset hij (by omega)

theorem start_inj (h : L.Sound) {i j : Nat} (hi : i < L.code.length) (hj : j < L.code.length)
    (hstart : L.code.start i = L.code.start j) : i = j := by
  rcases Nat.lt_trichotomy i j with hlt | heq | hgt
  · exact absurd hstart (Nat.ne_of_lt (h.start_lt_start hlt hj))
  · exact heq
  · exact absurd hstart (Nat.ne_of_gt (h.start_lt_start hgt hi))

theorem of_opcode (h : L.Sound) {i : Nat} {l : Asm.Line} (hi : L.code[i]? = some l) :
    match l.asm.opcode with
    | .closure => ∃ k cs, l.asm = .closure k cs
    | .jump => ∃ n, l.asm = .skip n ∧ i + 1 + n < L.code.length
    | .jumpIfFalse => ∃ n, l.asm = .skipIfFalse n ∧ i + 1 + n < L.code.length
    | .loop => ∃ n, l.asm = .back n ∧ n ≤ i
    | c => ∃ ns, l.asm = .op c ns := by
  have hgood := h.good hi
  cases hasm : l.asm with
  | op c ns =>
    rw [hasm] at hgood
    obtain ⟨⟨hspecial, -⟩, -⟩ := hgood
    cases c <;> first | exact ⟨ns, rfl⟩ | cases hspecial
  | closure k cs => exact ⟨k, cs, rfl⟩
  | skip n =>
    rw [hasm] at hgood
    exact ⟨n, rfl, hgood.1⟩
  | skipIfFalse n =>
    rw [hasm] at hgood
    exact ⟨n, rfl, hgood.2.1⟩
  | back n =>
    rw [hasm] at hgood
    exact ⟨n, rfl, hgood.1⟩
  | exit k =>
    rw [hasm] at hgood
    cases k with
    | miss =>
      obtain ⟨-, -, -, s, hs, -⟩ := hgood
      cases hs
    | leave | next =>
      obtain ⟨s, hs, -⟩ := hgood
      cases hs

theorem asm_eq (h : L.Sound) (h' : L'.Sound) (hlength : L'.code.length = L.code.length)
    (hstarts : ∀ i < L.code.length, L.code.start i = L'.code.start i) {i : Nat} {l l' : Asm.Line}
    (hi : L.code[i]? = some l) (hi' : L'.code[i]? = some l')
    (heq : l.asm.decoded L.code.start i = l'.asm.decoded L'.code.start i) : l.asm = l'.asm := by
  have hopcode : l'.asm.opcode = l.asm.opcode := by
    refine Opcode.eq_of_byte ?_
    rw [← Asm.decoded_byte L'.code.start i, ← heq, Asm.decoded_byte]
  have hlt : i < L.code.length := (List.getElem?_eq_some_iff.mp hi).1
  have htarget : ∀ {j j'}, j < L.code.length → j' < L.code.length →
      L.code.start j = L'.code.start j' → j = j' := fun hj hj' hstart =>
    h.start_inj hj hj' (hstart.trans (hstarts _ hj').symm)
  have hform := h.of_opcode hi
  have hform' := h'.of_opcode hi'
  rw [hopcode] at hform'
  rw [hlength] at hform'
  have hoperands := congrArg Decoded.operands heq
  have hcaptures := congrArg Decoded.captures heq
  generalize l.asm.opcode = c at hform hform'
  cases c with
  | closure =>
    obtain ⟨k, cs, hasm⟩ := hform
    obtain ⟨k', cs', hasm'⟩ := hform'
    rw [hasm, hasm'] at hoperands hcaptures
    obtain rfl : cs = cs' := hcaptures
    obtain rfl : k = k' := (List.cons.inj hoperands).1
    rw [hasm, hasm']
  | jump | jumpIfFalse =>
    obtain ⟨n, hasm, hn⟩ := hform
    obtain ⟨n', hasm', hn'⟩ := hform'
    rw [hasm, hasm'] at hoperands
    have htargets := htarget hn hn' (List.cons.inj hoperands).1
    rw [hasm, hasm', show n = n' by omega]
  | loop =>
    obtain ⟨n, hasm, hn⟩ := hform
    obtain ⟨n', hasm', hn'⟩ := hform'
    rw [hasm, hasm'] at hoperands
    have htargets := htarget (Nat.lt_of_le_of_lt (Nat.sub_le i n) hlt)
      (Nat.lt_of_le_of_lt (Nat.sub_le i n') hlt) (List.cons.inj hoperands).1
    rw [hasm, hasm', show n = n' by omega]
  | _ =>
    obtain ⟨ns, hasm⟩ := hform
    obtain ⟨ns', hasm'⟩ := hform'
    rw [hasm, hasm'] at hoperands
    rw [hasm, hasm', show ns = ns' from hoperands]

theorem asms_eq (h : L.Sound) (h' : L'.Sound) {file file' : String}
    (hchunk : L.code.chunk L.limits.pool file = L'.code.chunk L'.limits.pool file') :
    L.asms = L'.asms ∧ L.limits.pool = L'.limits.pool := by
  have hread := Assembly.decode?_chunk h.fits h.reaches L.limits.pool file
  rw [hchunk, Assembly.decode?_chunk h'.fits h'.reaches] at hread
  have hat : ∀ i : Nat, (L'.code[i]?).map (fun l : Asm.Line => l.asm.decoded L'.code.start i)
      = (L.code[i]?).map fun l : Asm.Line => l.asm.decoded L.code.start i := fun i => by
    have hi := congrArg (·[i]?) (Option.some.inj hread)
    simpa only [Assembly.getElem?_decodedFrom, Nat.zero_add] using hi
  have hlength : L'.code.length = L.code.length := by
    refine Nat.le_antisymm ?_ ?_
    · have hi := hat L.code.length
      rw [List.getElem?_eq_none (Nat.le_refl L.code.length)] at hi
      exact List.getElem?_eq_none_iff.mp (Option.map_eq_none_iff.mp hi)
    · have hi := hat L'.code.length
      rw [List.getElem?_eq_none (Nat.le_refl L'.code.length)] at hi
      exact List.getElem?_eq_none_iff.mp (Option.map_eq_none_iff.mp hi.symm)
  have hline : ∀ i (hi : i < L.code.length), ∃ l l', L.code[i]? = some l ∧ L'.code[i]? = some l' ∧
      l.asm.decoded L.code.start i = l'.asm.decoded L'.code.start i := fun i hi => by
    have h₁ := List.getElem?_eq_getElem hi
    have h₂ := List.getElem?_eq_getElem (hlength ▸ hi : i < L'.code.length)
    have heq := hat i
    rw [h₁, h₂] at heq
    exact ⟨_, _, h₁, h₂, (Option.some.inj heq).symm⟩
  have hstarts : ∀ i < L.code.length, L.code.start i = L'.code.start i := fun i hi => by
    obtain ⟨l, l', -, -, heq⟩ := hline i hi
    have hoffset := congrArg Decoded.offset heq
    rwa [Asm.decoded_offset, Asm.decoded_offset] at hoffset
  refine ⟨List.ext_getElem? fun i => ?_, ?_⟩
  · rw [asms, asms, List.getElem?_map, List.getElem?_map]
    rcases Nat.lt_or_ge i L.code.length with hi | hi
    · obtain ⟨l, l', hl, hl', heq⟩ := hline i hi
      rw [hl, hl', Option.map_some, Option.map_some, asm_eq h h' hlength hstarts hl hl' heq]
    · rw [List.getElem?_eq_none hi, List.getElem?_eq_none (hlength ▸ hi)]
  · have hpool := congrArg Chunk.constants hchunk
    rwa [Assembly.chunk_constants, Assembly.chunk_constants] at hpool

end Sound

end Listing

variable {May : Nat → Value → Prop}

def Minds (May : Nat → Value → Prop) (pool : Array Value) (as : List Asm) : Prop :=
  ∀ j n, as[j]? = some (.op .setGlobal [n]) → (∀ v, May n v) ∨
    ∃ i k v, j = i + 1 ∧ as[i]? = some (.op .const [k]) ∧ pool[k]? = some v ∧ May n v ∧
      ∀ i' a, as[i']? = some a → a.GoesTo i' j → i' = i

theorem Minds.mono {May' : Nat → Value → Prop} {pool : Array Value} {as : List Asm}
    (h : Minds May pool as) (hmay : ∀ n v, May n v → May' n v) : Minds May' pool as := by
  intro j n hj
  rcases h j n hj with hall | ⟨i, k, v, hij, hi, hv, hn, honly⟩
  · exact .inl fun v => hmay n v (hall v)
  · exact .inr ⟨i, k, v, hij, hi, hv, hmay n v hn, honly⟩

def Chunk.Minds (May : Nat → Value → Prop) (c : Chunk) : Prop :=
  ∃ L : Listing, L.Sound ∧ c = L.code.chunk L.limits.pool c.file ∧
    Scripting.Minds May L.limits.pool L.asms

theorem Chunk.Minds.mono {May' : Nat → Value → Prop} {c : Chunk} (h : c.Minds May)
    (hmay : ∀ n v, May n v → May' n v) : c.Minds May' := by
  obtain ⟨L, hL, hc, hminds⟩ := h
  exact ⟨L, hL, hc, hminds.mono hmay⟩

theorem Chunk.Minds.listing {c : Chunk} (h : c.Minds May) {L : Listing} (hL : L.Sound)
    (hc : c = L.code.chunk L.limits.pool c.file) : Scripting.Minds May L.limits.pool L.asms := by
  obtain ⟨L', hL', hc', hminds⟩ := h
  obtain ⟨hasms, hpool⟩ := hL.asms_eq hL' (hc.symm.trans hc')
  rwa [hasms, hpool]

def Frame.Storing (f : Frame) (n : Nat) : Prop :=
  ∃ d, f.chunk.decodeAt? f.ip = some d ∧ d.byte = Opcode.setGlobal.byte ∧ d.operands = [n]

namespace Frame.At

variable {L : Listing} {i : Nat} {f : Frame}

theorem storing (h : f.At L i) (hL : L.Sound) {n : Nat} (hs : f.Storing n) :
    L.asms[i]? = some (.op .setGlobal [n]) := by
  obtain ⟨l, hi⟩ := h.instruction
  obtain ⟨d, hd, hbyte, hoperands⟩ := hs
  rw [h.decodeAt? hL hi] at hd
  obtain rfl := Option.some.inj hd
  have hform := hL.of_opcode hi
  rw [Asm.decoded_byte] at hbyte
  rw [Opcode.eq_of_byte hbyte] at hform
  obtain ⟨ns, hasm⟩ := hform
  rw [hasm] at hoperands
  obtain rfl : ns = [n] := hoperands
  rw [Listing.getElem?_asms hi, hasm]

theorem takes (h : f.At L i) (hL : L.Sound) (hm : f.chunk.Minds May)
    (hnot : ∀ j k, i = j + 1 → L.asms[j]? ≠ some (.op .const [k])) {n : Nat} (hs : f.Storing n)
    (v : Value) : May n v := by
  rcases hm.listing hL h.chunk i n (h.storing hL hs) with hall | ⟨j, k, -, hij, hj, -⟩
  · exact hall v
  · exact absurd hj (hnot j k hij)

end Frame.At

theorem Exec.getElem?_storeGlobal_self (gs : Array Value) (i : Nat) (v : Value) :
    (storeGlobal gs i v)[i]? = some v := by
  rw [storeGlobal]
  split
  · rename_i hlt
    exact Array.getElem?_setIfInBounds_self_of_lt hlt
  · rename_i hge
    have hsize : (gs ++ Array.replicate (i - gs.size) Value.absent).size = i := by
      rw [Array.size_append, Array.size_replicate]
      omega
    rw [Array.getElem?_push, if_pos hsize.symm]

theorem Exec.getElem?_storeGlobal_of_ne {gs : Array Value} {i j : Nat} {v w : Value} (hne : i ≠ j)
    (hj : gs[j]? = some w) : (storeGlobal gs i v)[j]? = some w := by
  have hlt : j < gs.size := (Array.getElem?_eq_some_iff.mp hj).1
  rw [storeGlobal]
  split
  · rwa [Array.getElem?_setIfInBounds_ne hne]
  · rw [Array.getElem?_push, if_neg (by rw [Array.size_append, Array.size_replicate]; omega),
      Array.getElem?_append_left hlt]
    exact hj

def Memory.Has (May : Nat → Value → Prop) (M : Memory) (n : Nat) : Prop :=
  ∃ v, M.globals[n]? = some v ∧ May n v

theorem Memory.Has.of_globals {M M' : Memory} {n : Nat} (h : M.Has May n)
    (hg : M'.globals = M.globals) : M'.Has May n := by
  obtain ⟨v, hv, hmay⟩ := h
  exact ⟨v, hg ▸ hv, hmay⟩

theorem Memory.Has.self {M : Memory} {i : Nat} {v : Value} (hv : May i v) :
    (M.storeGlobal i v).Has May i :=
  ⟨v, Exec.getElem?_storeGlobal_self M.globals i v, hv⟩

theorem Memory.Has.store {M : Memory} {n i : Nat} {v : Value} (h : M.Has May n) (hv : May i v) :
    (M.storeGlobal i v).Has May n := by
  by_cases hin : i = n
  · exact hin ▸ .self hv
  · obtain ⟨w, hw, hmay⟩ := h
    exact ⟨w, Exec.getElem?_storeGlobal_of_ne hin hw, hmay⟩

theorem Frame.Acts.globals {f : Frame} {st top : List Value} {M M' : Memory} {ls : Array Value}
    {c : Opcode} {ns : List Nat} (h : f.Acts st M ls top M' c ns) (hc : c ≠ .setGlobal) :
    M'.globals = M.globals := by
  cases c with
  | const | getCell | getUpvalue =>
    obtain ⟨-, rfl, -⟩ := h
    rfl
  | setLocal =>
    obtain ⟨rfl, -⟩ := h
    rfl
  | setGlobal => exact absurd rfl hc
  | makeCell =>
    obtain ⟨v, -, -, rfl⟩ := h
    rfl
  | setCell | setUpvalue =>
    obtain ⟨-, r, v, -, -, rfl⟩ := h
    rfl
  | _ =>
    obtain ⟨-, rfl⟩ := h
    rfl

namespace Machine

/-- What holds of a machine that runs code that minds what slots may hold. -/
structure Minds (May : Nat → Value → Prop) (m : Machine) : Prop where
  code : ∀ x ∈ m.world.heap.funcs, ∀ chunk, x.chunk = some chunk → chunk.Minds May
  frames : ∀ f ∈ m.frames, f.chunk.Minds May
  running : ∀ f, m.frames.head? = some f → ∀ n v, f.Storing n → m.stack.head? = some v → May n v
  waiting : ∀ f ∈ m.frames.tail, ∀ n, f.Storing n → ∀ v, May n v

variable {m m' : Machine} {L : Listing} {i : Nat} {f : Frame} {fs : List Frame} {w : List Nat}
  {ws : List (List Nat)}

theorem Runs.primed (hr : m.Runs L i f fs w ws) (hm : f.chunk.Minds May) {j : Nat} {f' : Frame}
    {st' : List Value} {M' : Memory} (hstays : L.Stays i f m.stack m.memory j f' st' M') {n : Nat}
    {v : Value} (hs : f'.Storing n) (hv : st'.head? = some v) : May n v := by
  obtain ⟨l, hi, hgoes, hdoes⟩ := hstays.does
  rcases hm.listing hr.sound hr.here.chunk j n (hstays.there.storing hr.sound hs) with
    hall | ⟨i₀, k, x, -, hi₀, hx, hmay, honly⟩
  · exact hall v
  · -- Only the constant right before the store leads to it, so the value on top is that constant.
    obtain rfl := honly i l.asm (Listing.getElem?_asms hi) hgoes
    rw [Listing.getElem?_asms hi] at hi₀
    rw [Option.some.inj hi₀] at hdoes
    cases hdoes with
    | op _ hacts =>
      obtain ⟨-, -, y, hy, rfl⟩ := hacts
      rw [hr.here.constants, List.headD_cons, hx] at hy
      obtain rfl := Option.some.inj hy
      obtain rfl : x = v := Option.some.inj hv
      exact hmay

theorem Runs.keeps (hr : m.Runs L i f fs w ws) (hm : m.Minds May) {j : Nat} {f' : Frame}
    {st' : List Value} {M' : Memory} (hstays : L.Stays i f m.stack m.memory j f' st' M') {n : Nat}
    (hn : m.memory.Has May n) : M'.Has May n := by
  obtain ⟨l, hi, -, hdoes⟩ := hstays.does
  have hdecode := hr.here.decodeAt? hr.sound hi
  have hfits := hr.sound.fits l (List.mem_of_getElem? hi)
  generalize l.asm = a at hdoes hdecode hfits
  generalize f'.locals = ls at hdoes
  cases hdoes with
  | @op c ns _ _ _ _ hacts =>
    by_cases hc : c = .setGlobal
    · subst hc
      obtain ⟨k, rfl, -⟩ := Exec.exists_word (c := .setGlobal) rfl hfits.2
      obtain ⟨-, v, hv, rfl⟩ := hacts
      have hhead : m.frames.head? = some f := by rw [hr.frames]; rfl
      exact hn.store (hm.running f hhead k v ⟨_, hdecode, rfl, rfl⟩ hv)
    · exact hn.of_globals (hacts.globals hc)
  | _ => exact hn.of_globals rfl

theorem Minds.next (hm : m.Minds May) (hs : m.Stands ws) (hnext : m.next = .inl m') :
    m'.Minds May ∧ ∀ n, m.memory.Has May n → m'.memory.Has May n := by
  obtain ⟨L, i, f, fs, w, ws, rfl, hr⟩ := hs.runs
  have hmoves := next_moves hr.frames hr.sound hr.here hr.height hnext
  have hfuncs : m'.world.heap.funcs = m.world.heap.funcs := hmoves.later.funcs
  have hcode : ∀ x ∈ m'.world.heap.funcs, ∀ chunk, x.chunk = some chunk → chunk.Minds May :=
    fun x hx => hm.code x (hfuncs ▸ hx)
  have hframe : f.chunk.Minds May := hm.frames f (by rw [hr.frames]; exact List.mem_cons_self)
  have hothers : ∀ g ∈ fs, g.chunk.Minds May := fun g hg =>
    hm.frames g (by rw [hr.frames]; exact List.mem_cons_of_mem f hg)
  have hwaiting : ∀ g ∈ fs, ∀ n, g.Storing n → ∀ v, May n v := fun g hg =>
    hm.waiting g (by rw [hr.frames]; exact hg)
  generalize hv : m'.view = v at hmoves
  cases hmoves with
  | goes _ _ hstays | loops _ _ hstays =>
    obtain ⟨hframes, hstack, -, hmemory⟩ := View.mk.inj hv
    refine ⟨⟨hcode, ?_, fun g hg n v hn hv => ?_, ?_⟩, fun n hn => hmemory ▸ hr.keeps hm hstays hn⟩
    · rw [hframes]
      exact List.forall_mem_cons.mpr ⟨hstays.chunk ▸ hframe, hothers⟩
    · rw [hframes] at hg
      obtain rfl := Option.some.inj hg
      exact hr.primed hframe hstays hn (hstack ▸ hv)
    · rw [hframes]
      exact hwaiting
  | @enters f' st' args a r x chunk free hcall _ hthere hrest _ _ _ _ hknown hbody harity hcaptured =>
    obtain ⟨hframes, hstack, -, hmemory⟩ := View.mk.inj hv
    have hmem : x ∈ m.world.heap.funcs := Array.mem_of_getElem? hknown
    have hchunk : f'.chunk = f.chunk := by rw [hrest]
    obtain ⟨L', hL', hat, -⟩ := entered (hs.verified x hmem) (hs.short x hmem) hbody harity hcaptured
      st'.length
    have hminds : chunk.Minds May := hm.code x hmem chunk hbody
    refine ⟨⟨hcode, ?_, fun g hg n v hn _ => ?_, ?_⟩, fun n hn => hmemory ▸ hn⟩
    · rw [hframes]
      exact List.forall_mem_cons.mpr ⟨hminds, List.forall_mem_cons.mpr ⟨hchunk ▸ hframe, hothers⟩⟩
    · rw [hframes] at hg
      obtain rfl := Option.some.inj hg
      exact hat.takes hL' hminds (by omega) hn v
    · rw [hframes]
      refine List.forall_mem_cons.mpr ⟨fun n hn v => ?_, hwaiting⟩
      obtain ⟨l, hi, hasm⟩ := hcall
      refine hthere.takes hr.sound (hchunk ▸ hframe) (fun j k hij hj => ?_) hn v
      obtain rfl := Nat.succ.inj hij
      rw [Listing.getElem?_asms hi, hasm] at hj
      cases hj
  | leaves _ _ hresult =>
    obtain ⟨hframes, -, -, hmemory⟩ := View.mk.inj hv
    refine ⟨⟨hcode, hframes ▸ hothers, fun g hg n v hn _ => ?_, fun g hg => ?_⟩, fun n hn => hmemory ▸ hn⟩
    · exact hwaiting g (List.mem_of_head? (hframes ▸ hg)) n hn v
    · exact hwaiting g (List.mem_of_mem_tail (hframes ▸ hg))

theorem Ends.has {c : Nat} {o : Outcome} (h : m.Ends c o m') (hs : m.Stands ws) (hm : m.Minds May)
    {n : Nat} (hn : m.memory.Has May n) : m'.memory.Has May n := by
  induction h generalizing ws with
  | last hstop =>
    obtain ⟨L, i, f, fs, w, ws, rfl, hr⟩ := hs.runs
    rwa [next_ends hr.frames hr.sound hr.here hr.height hstop]
  | next hstep _ ih =>
    obtain ⟨hm', hkeeps⟩ := hm.next hs hstep
    exact ih (hs.next hstep) hm' (hkeeps n hn)

end Machine

/-- Whether code from place `i` on stores constants into global slots, one after the other. -/
def Listing.StoresFrom (L : Listing) (i : Nat) : List (Nat × Value) → Prop
  | [] => True
  | (n, v) :: known => (∃ k, L.asms[i]? = some (.op .const [k]) ∧ L.limits.pool[k]? = some v) ∧
      L.asms[i + 1]? = some (.op .setGlobal [n]) ∧ L.StoresFrom (i + 2) known

theorem Listing.StoresFrom.of_asms {L L' : Listing} (hasms : L.asms = L'.asms)
    (hpool : L.limits.pool = L'.limits.pool) : {known : List (Nat × Value)} → {i : Nat} →
      L.StoresFrom i known → L'.StoresFrom i known
  | [], _, _ => trivial
  | _ :: _, _, ⟨⟨k, hconst, hv⟩, hstore, hrest⟩ =>
    ⟨⟨k, hasms ▸ hconst, hpool ▸ hv⟩, hasms ▸ hstore, hrest.of_asms hasms hpool⟩

def Chunk.Starts (c : Chunk) (known : List (Nat × Value)) : Prop :=
  ∃ L : Listing, L.Sound ∧ c = L.code.chunk L.limits.pool c.file ∧ L.StoresFrom 0 known

namespace Frame.At

open Exec (Yields step)

variable {L : Listing} {i : Nat} {f : Frame} {fs : List Frame} {st : List Value} {b : Nat} {M : Memory}

theorem word (h : f.At L i) (hL : L.Sound) {c : Opcode} {n : Nat} (hi : L.asms[i]? = some (.op c [n]))
    (hw : c.widths = [2]) (hstores : Frame.Stores f.locals f.locals c [n]) (hcell : c ≠ .makeCell)
    (hret : c ≠ .ret) : n < 256 ^ 2 ∧ f.Ahead (c.byte :: littleEndian 2 n) ∧
      ((f.skip 1).skip 2).At L (i + 1) := by
  obtain ⟨l, hl, hasm⟩ := Listing.exists_of_asms hi
  have hgood := hL.good hl
  have hahead := h.ahead hL hl
  rw [hasm] at hgood hahead
  obtain ⟨⟨-, hfits⟩, -, -, hnext⟩ := hgood
  obtain ⟨hin, hwithin⟩ := hnext hret
  obtain ⟨m, heq, hn⟩ := Exec.exists_word hw hfits
  obtain ⟨rfl, -⟩ := List.cons.inj heq
  have hat := Exec.At.next h hl hasm hin hwithin hstores fun he => absurd he hcell
  rw [hw] at hat
  refine ⟨hn, ?_, hat⟩
  rw [Asm.bytes, hw] at hahead
  simpa using hahead

theorem step_const (h : f.At L i) (hL : L.Sound) {k : Nat} {v : Value}
    (hi : L.asms[i]? = some (.op .const [k])) (hv : L.limits.pool[k]? = some v) :
    ((f.skip 1).skip 2).At L (i + 1) ∧
      Yields step ⟨f :: fs, st, b, M⟩ none ⟨(f.skip 1).skip 2 :: fs, v :: st, b, M⟩ := by
  obtain ⟨hk, hahead, hat⟩ := h.word hL hi rfl rfl nofun nofun
  refine ⟨hat, (Exec.readByte_yields hahead).andThen ?_⟩
  have hword := hahead.tail
  rw [← List.append_nil (littleEndian 2 k)] at hword
  rw [← h.constants] at hv
  rw [Opcode.ofByte?_byte]
  exact ((Exec.readConstant_yields (f := f.skip 1) hk hword hv).andThen Exec.push_yields).andThen (.pure none)

theorem step_store (h : f.At L i) (hL : L.Sound) {n : Nat} {v : Value}
    (hi : L.asms[i]? = some (.op .setGlobal [n])) :
    ((f.skip 1).skip 2).At L (i + 1) ∧ Yields step ⟨f :: fs, v :: st, b, M⟩ none
      ⟨(f.skip 1).skip 2 :: fs, st, b, M.storeGlobal n v⟩ := by
  obtain ⟨hn, hahead, hat⟩ := h.word hL hi rfl rfl nofun nofun
  refine ⟨hat, (Exec.readByte_yields hahead).andThen ?_⟩
  have hword := hahead.tail
  rw [← List.append_nil (littleEndian 2 n)] at hword
  rw [Opcode.ofByte?_byte]
  exact ((Exec.readWord_yields (f := f.skip 1) (by decide) hn hword).andThen
    (Exec.pop_yields.andThen (Exec.setGlobal_yields n v))).andThen (.pure none)

end Frame.At

namespace Machine

variable {m m' : Machine} {L : Listing} {f : Frame} {fs : List Frame} {ws : List (List Nat)}

theorem next_yields {w : View} (h : Exec.Yields Exec.step m.view none w) :
    ∃ m', m.next = .inl m' ∧ m'.view = w := by
  obtain ⟨m', hrun, hm'⟩ := h m rfl
  exact ⟨m', by rw [next, hrun], hm'⟩

theorem Ends.after {c : Nat} {o : Outcome} {m₁ : Machine} (h : m.Ends c o m')
    (hnext : m.next = .inl m₁) : ∃ c', m₁.Ends c' o m' := by
  cases h with
  | last hstop => cases hnext.symm.trans hstop
  | next hstep hrest =>
    obtain rfl := Sum.inl.inj (hstep.symm.trans hnext)
    exact ⟨_, hrest⟩

theorem Ends.fills {o : Outcome} (hL : L.Sound) : (known : List (Nat × Value)) → {m : Machine} →
    {i c : Nat} → {f : Frame} → {ws : List (List Nat)} → m.Ends c o m' → m.Stands ws → m.Minds May →
      m.frames = f :: fs → f.At L i → L.StoresFrom i known → (∀ x ∈ known, May x.1 x.2) →
        ∀ x ∈ known, m'.memory.Has May x.1
  | [], _, _, _, _, _, _, _, _, _, _, _, _ => fun _ h => nomatch h
  | (n, v) :: known, m, i, c, f, ws, h, hs, hm, hframes, hat, hstores, hmay => by
    obtain ⟨⟨k, hconst, hv⟩, hstore, hrest⟩ := hstores
    obtain ⟨hat₁, hyields₁⟩ : ((f.skip 1).skip 2).At L (i + 1) ∧ Exec.Yields Exec.step m.view none
        ⟨(f.skip 1).skip 2 :: fs, v :: m.stack, m.budget, m.memory⟩ := by
      rw [view_eq hframes]
      exact hat.step_const hL hconst hv
    obtain ⟨m₁, hnext₁, hview₁⟩ := next_yields hyields₁
    obtain ⟨hat₂, hyields₂⟩ : ((((f.skip 1).skip 2).skip 1).skip 2).At L (i + 1 + 1) ∧
        Exec.Yields Exec.step m₁.view none ⟨(((f.skip 1).skip 2).skip 1).skip 2 :: fs, m.stack, m.budget,
          m.memory.storeGlobal n v⟩ := by
      rw [hview₁]
      exact hat₁.step_store hL hstore
    obtain ⟨m₂, hnext₂, hview₂⟩ := next_yields hyields₂
    obtain ⟨hframes₂, -, -, hmemory₂⟩ := View.mk.inj hview₂
    obtain ⟨c₁, h₁⟩ := h.after hnext₁
    obtain ⟨c₂, h₂⟩ := h₁.after hnext₂
    have hs₁ := hs.next hnext₁
    have hs₂ := hs₁.next hnext₂
    have hm₂ := ((hm.next hs hnext₁).1.next hs₁ hnext₂).1
    intro x hx
    rcases List.mem_cons.mp hx with rfl | hx
    · have hheld : m₂.memory.Has May n := by
        rw [show m₂.memory = m.memory.storeGlobal n v from hmemory₂]
        exact .self (hmay (n, v) List.mem_cons_self)
      exact h₂.has hs₂ hm₂ hheld
    · exact Ends.fills hL known h₂ hs₂ hm₂ hframes₂ hat₂ hrest
        (fun y hy => hmay y (List.mem_cons_of_mem _ hy)) x hx

theorem Ends.starts {c : Nat} {o : Outcome} {known : List (Nat × Value)} (h : m.Ends c o m')
    (hs : m.Stands ws) (hm : m.Minds May) (hframes : m.frames = f :: fs) (hL : L.Sound) (hat : f.At L 0)
    (hstarts : f.chunk.Starts known) (hmay : ∀ x ∈ known, May x.1 x.2) :
    ∀ x ∈ known, m'.memory.Has May x.1 := by
  obtain ⟨L', hL', hchunk, hstores⟩ := hstarts
  obtain ⟨hasms, hpool⟩ := hL'.asms_eq hL (hchunk.symm.trans hat.chunk)
  exact h.fills hL known hs hm hframes hat (hstores.of_asms hasms hpool) hmay

end Machine

end Scripting
