import LoxMachine.Proofs.Compile.Variables
import LoxMachine.Proofs.Grammar.Rules

/-!
# Where captured variables come from

A draft refers to a captured variable by a slot of the draft around it, or by a captured variable of
that draft. Followed through all drafts, each captured variable is a local variable of one of them.

* `origins` are the variables that the innermost of some drafts captures.
* `Threaded`: every reference leads to a variable, and no variable is captured twice.
* `Absorbs places`: the drafts have captured the given variables, wherever they lie further out.
* `resolve_some`: finding a variable of an enclosing function captures it in every draft in between, if
  there is room.
-/

namespace LoxMachine

/-! ## Scopes of drafts -/

/-- A local variable, captured or not. -/
def Local.plain (l : Local) : Local := { l with captured := false }

/-- The function that a draft is for. -/
def Draft.scope (d : Draft) : FunctionScope :=
  { kind := d.kind, locals := d.locals.map Local.plain, depth := d.depth }

theorem findLocal_plain (name : String) (locals : List Local) :
    Draft.findLocal name (locals.map Local.plain) =
      (Draft.findLocal name locals).map fun found => (found.1, found.2.plain) := by
  induction locals with
  | nil => rfl
  | cons l locals ih =>
    by_cases h : l.name = name
    · simp [Draft.findLocal, Local.plain, h]
    · have hplain : l.plain.name ≠ name := h
      simp only [List.map_cons, Draft.findLocal, if_neg h, if_neg hplain, ih]

theorem map_plain_markCaptured (name : String) (locals : List Local) :
    (Draft.markCaptured name locals).map Local.plain = locals.map Local.plain := by
  induction locals with
  | nil => rfl
  | cons l locals ih =>
    by_cases h : l.name = name
    · simp [Draft.markCaptured, Local.plain, h]
    · simp [Draft.markCaptured, h, ih]

/-- An inner function captures the variable in a slot. -/
def Draft.Holds (d : Draft) (slot : Nat) : Prop :=
  ∃ l, d.locals.reverse[slot]? = some l ∧ l.captured = true

namespace Draft

/-- The slots of all variables but the last. -/
theorem getElem?_slots_cons (l : Local) (locals : List Local) (slot : Nat) :
    (l :: locals).reverse[slot]? = if slot = locals.length then some l else locals.reverse[slot]? := by
  have hlength : locals.reverse.length = locals.length := List.length_reverse
  rw [List.reverse_cons, List.getElem?_append, hlength]
  rcases Nat.lt_trichotomy slot locals.length with h | h | h
  · rw [if_pos h, if_neg h.ne]
  · simp [h]
  · rw [if_neg (by omega), if_neg h.ne', List.getElem?_eq_none (by simp; omega),
      List.getElem?_eq_none (by omega)]

theorem holds_markCaptured {d : Draft} {name : String} {slot : Nat} {l : Local}
    (h : findLocal name d.locals = some (slot, l)) (s : Nat) :
    Holds { d with locals := markCaptured name d.locals } s ↔ d.Holds s ∨ s = slot := by
  have hlist : ∀ locals : List Local, findLocal name locals = some (slot, l) →
      ((∃ l, (markCaptured name locals).reverse[s]? = some l ∧ l.captured = true) ↔
        (∃ l, locals.reverse[s]? = some l ∧ l.captured = true) ∨ s = slot) := by
    intro locals
    induction locals with
    | nil => exact nofun
    | cons l' locals ih =>
      intro hfind
      unfold findLocal at hfind
      unfold markCaptured
      split at hfind
      · obtain ⟨rfl, rfl⟩ := Prod.mk.inj (Option.some.inj hfind)
        rename_i hname
        rw [if_pos hname]
        simp only [getElem?_slots_cons]
        by_cases hs : s = locals.length <;> simp [hs]
      · rename_i hname
        have hlt := lt_length_of_findLocal hfind
        rw [if_neg hname]
        simp only [getElem?_slots_cons, length_markCaptured]
        by_cases hs : s = locals.length
        · simp only [hs, if_true]
          exact ⟨.inl, fun h => h.elim id fun h => by omega⟩
        · simp only [if_neg hs]
          exact ih hfind
  exact hlist d.locals h

end Draft

/-! ## Origins -/

/-- The variable that a capture refers to, where `around` are those that the draft around captures, and
`functions` the number of functions around that one. -/
def Capture.origin (functions : Nat) (around : List (Nat × Nat)) (c : Capture) : Nat × Nat :=
  if c.isLocal then (functions, c.index.toNat) else around[c.index.toNat]?.getD (0, 0)

/-- The variables that the first draft captures, in the order of its captures. -/
def origins : List Draft → List (Nat × Nat)
  | [] => []
  | d :: outer => d.captures.toList.map (Capture.origin (outer.length - 1) (origins outer))

/-- A capture refers to a variable of the draft around. -/
def Capture.Valid (c : Capture) : List Draft → Prop
  | [] => False
  | e :: _ => c.index.toNat < if c.isLocal then e.locals.length else e.captures.size

/-- Every capture refers to a variable of its own. -/
def Threaded : List Draft → Prop
  | [] => True
  | d :: outer => (∀ c ∈ d.captures, c.Valid outer) ∧ (origins (d :: outer)).Nodup ∧ Threaded outer

/-- Slots, captures and constants can be named by a byte, and the captures are counted. -/
structure Draft.Bounded (d : Draft) : Prop where
  locals : d.locals.length ≤ byteCount
  captures : d.captures.size ≤ byteCount
  counted : d.upvalueCount = d.captures.size
  constants : d.chunk.constants.size ≤ byteCount

theorem Draft.bounded_start (kind : FunctionKind) (name : Option Handle) : (start kind name).Bounded :=
  ⟨Nat.le_of_ble_eq_true rfl, Nat.zero_le _, rfl, Nat.zero_le _⟩

theorem length_origins (d : Draft) (outer : List Draft) :
    (origins (d :: outer)).length = d.captures.size := by
  simp [origins]

/-- A captured variable belongs to a function further out. -/
theorem origin_lt {d : Draft} {outer : List Draft} {o : Nat × Nat} (h : Threaded (d :: outer))
    (ho : o ∈ origins (d :: outer)) : o.1 < outer.length := by
  induction outer generalizing d o with
  | nil =>
    obtain ⟨c, hc, -⟩ := List.mem_map.1 ho
    exact (h.1 c (Array.mem_toList_iff.1 hc)).elim
  | cons e outer ih =>
    obtain ⟨c, hc, rfl⟩ := List.mem_map.1 ho
    have hvalid := h.1 c (Array.mem_toList_iff.1 hc)
    change c.index.toNat < if c.isLocal then _ else _ at hvalid
    unfold Capture.origin
    split
    · simp
    · rename_i hlocal
      rw [if_neg hlocal, ← length_origins e outer] at hvalid
      rw [List.getElem?_eq_getElem hvalid, Option.getD_some]
      exact Nat.lt_succ_of_lt (ih h.2.2 (List.getElem_mem hvalid))

/-- Captures that refer to one variable are one capture. -/
theorem origin_injective {e : Draft} {outer : List Draft} {c c' : Capture} (h : Threaded (e :: outer))
    (hc : c.Valid (e :: outer)) (hc' : c'.Valid (e :: outer))
    (heq : c.origin outer.length (origins (e :: outer)) = c'.origin outer.length (origins (e :: outer))) :
    c = c' := by
  have hindex : ∀ {i j : UInt8}, i.toNat = j.toNat → i = j := UInt8.toNat_inj.1
  obtain ⟨i, isLocal⟩ := c
  obtain ⟨j, isLocal'⟩ := c'
  cases isLocal <;> cases isLocal' <;>
    simp only [Capture.Valid, if_true, if_false, Bool.false_eq_true, ← length_origins e outer] at hc hc' <;>
    simp only [Capture.origin, if_true, if_false, Bool.false_eq_true] at heq
  · rw [List.getElem?_eq_getElem hc, List.getElem?_eq_getElem hc', Option.getD_some, Option.getD_some] at heq
    rw [hindex ((List.Nodup.getElem_inj_iff h.2.1).1 heq)]
  · rw [List.getElem?_eq_getElem hc, Option.getD_some] at heq
    have := origin_lt h (List.getElem_mem hc)
    rw [heq] at this
    exact absurd this (Nat.lt_irrefl _)
  · rw [List.getElem?_eq_getElem hc', Option.getD_some] at heq
    have := origin_lt h (List.getElem_mem hc')
    rw [← heq] at this
    exact absurd this (Nat.lt_irrefl _)
  · rw [hindex (Prod.mk.inj heq).2]

/-! ## Capturing -/

/-- Some more variables can be captured: in every draft, the variables captured and those still to
be captured can be named by a byte. -/
def HasRoom (places : List (Nat × Nat)) : List Draft → Prop
  | [] => True
  | d :: outer =>
    (origins (d :: outer) ++ places.filter (·.1 < outer.length)).toFinset.card ≤ byteCount ∧
      HasRoom places outer

/-- Variables are added to those captured before, each only once. -/
def gather (captured places : List (Nat × Nat)) : List (Nat × Nat) :=
  places.foldl (fun captured p => if p ∈ captured then captured else captured ++ [p]) captured

@[simp] theorem gather_nil (captured : List (Nat × Nat)) : gather captured [] = captured := rfl

theorem gather_cons (captured : List (Nat × Nat)) (p : Nat × Nat) (places : List (Nat × Nat)) :
    gather captured (p :: places) =
      gather (if p ∈ captured then captured else captured ++ [p]) places := rfl

theorem gather_append (captured places more : List (Nat × Nat)) :
    gather captured (places ++ more) = gather (gather captured places) more := List.foldl_append

theorem mem_gather {captured places : List (Nat × Nat)} {o : Nat × Nat} :
    o ∈ gather captured places ↔ o ∈ captured ∨ o ∈ places := by
  induction places generalizing captured with
  | nil => simp
  | cons p places ih =>
    rw [gather_cons, ih]
    split
    · rename_i hp
      rw [List.mem_cons]
      constructor
      · exact fun h => h.imp_right .inr
      · rintro (h | rfl | h)
        · exact .inl h
        · exact .inl hp
        · exact .inr h
    · rw [List.mem_append, List.mem_singleton, List.mem_cons, or_assoc]

theorem prefix_gather (captured places : List (Nat × Nat)) : captured <+: gather captured places := by
  induction places generalizing captured with
  | nil => exact List.prefix_rfl
  | cons p places ih =>
    rw [gather_cons]
    split
    · exact ih captured
    · exact (List.prefix_append _ _).trans (ih _)

/-- Drafts that have captured some more variables. -/
inductive Absorbs (places : List (Nat × Nat)) : List Draft → List Draft → Prop
  | nil : Absorbs places [] []
  | cons {d d' : Draft} {outer outer' : List Draft} (scope : d'.scope = d.scope)
      (same : d' = { d with
        locals := d'.locals, captures := d'.captures, upvalueCount := d'.upvalueCount })
      (gathered : origins (d' :: outer') =
        gather (origins (d :: outer)) (places.filter (·.1 < outer.length)))
      (held : ∀ slot, d'.Holds slot ↔ d.Holds slot ∨ (outer.length, slot) ∈ places)
      (more : Absorbs places outer outer') : Absorbs places (d :: outer) (d' :: outer')

/-- What a draft captures after it has captured some more variables. -/
theorem captured_of_gathered {places : List (Nat × Nat)} {d d' : Draft} {outer outer' : List Draft}
    (gathered : origins (d' :: outer') =
      gather (origins (d :: outer)) (places.filter (·.1 < outer.length))) (o : Nat × Nat) :
    o ∈ origins (d' :: outer') ↔ o ∈ origins (d :: outer) ∨ o ∈ places ∧ o.1 < outer.length := by
  rw [gathered, mem_gather, List.mem_filter, decide_eq_true_eq]

namespace Absorbs

variable {ps qs : List (Nat × Nat)} {ds ds' ds'' : List Draft}

theorem refl : ∀ ds, Absorbs [] ds ds
  | [] => .nil
  | _ :: outer => .cons rfl rfl rfl (by simp) (refl outer)

theorem length_eq (h : Absorbs ps ds ds') : ds'.length = ds.length := by
  induction h with
  | nil => rfl
  | cons _ _ _ _ _ ih => rw [List.length_cons, List.length_cons, ih]

theorem trans (h : Absorbs ps ds ds') (h' : Absorbs qs ds' ds'') : Absorbs (ps ++ qs) ds ds'' := by
  induction h generalizing ds'' with
  | nil =>
    cases h'
    exact .nil
  | cons scope same gathered held more ih =>
    cases h' with
    | cons scope' same' gathered' held' more' =>
      refine .cons (scope'.trans scope) ?_ ?_ (fun slot => ?_) (ih more')
      · rw [same', same]
      · rw [gathered', gathered, more.length_eq, List.filter_append, gather_append]
      · rw [held', held, more.length_eq, List.mem_append, or_assoc]

theorem scopes (h : Absorbs ps ds ds') : ds'.map Draft.scope = ds.map Draft.scope := by
  induction h with
  | nil => rfl
  | cons scope _ _ _ _ ih => rw [List.map_cons, List.map_cons, scope, ih]

/-- What there is room for after the first variables have been captured. -/
theorem hasRoom_append_cons {d d' : Draft} {outer outer' : List Draft}
    (captured : ∀ o, o ∈ origins (d' :: outer') ↔
      o ∈ origins (d :: outer) ∨ o ∈ ps ∧ o.1 < outer.length)
    (more : Absorbs ps outer outer')
    (ih : HasRoom (ps ++ qs) outer ↔ HasRoom ps outer ∧ HasRoom qs outer') :
    HasRoom (ps ++ qs) (d :: outer) ↔ HasRoom ps (d :: outer) ∧ HasRoom qs (d' :: outer') := by
  have hset : (origins (d :: outer) ++ (ps ++ qs).filter (·.1 < outer.length)).toFinset =
      (origins (d' :: outer') ++ qs.filter (·.1 < outer'.length)).toFinset := by
    ext o
    simp only [List.mem_toFinset, List.mem_append, List.mem_filter, captured, more.length_eq,
      decide_eq_true_eq]
    tauto
  have hsubset : (origins (d :: outer) ++ ps.filter (·.1 < outer.length)).toFinset ⊆
      (origins (d :: outer) ++ (ps ++ qs).filter (·.1 < outer.length)).toFinset := by
    intro o ho
    simp only [List.mem_toFinset, List.mem_append, List.mem_filter] at ho ⊢
    tauto
  have hle := Finset.card_le_card hsubset
  unfold HasRoom
  rw [ih, ← hset]
  constructor
  · exact fun ⟨hcard, hps, hqs⟩ => ⟨⟨hle.trans hcard, hps⟩, hcard, hqs⟩
  · exact fun ⟨⟨_, hps⟩, hcard, hqs⟩ => ⟨hcard, hps, hqs⟩

theorem hasRoom_append (h : Absorbs ps ds ds') : HasRoom (ps ++ qs) ds ↔ HasRoom ps ds ∧ HasRoom qs ds' := by
  induction h with
  | nil => simp [HasRoom]
  | cons _ _ gathered _ more ih =>
    exact hasRoom_append_cons (captured_of_gathered gathered) more ih

end Absorbs

theorem HasRoom.left {ps qs : List (Nat × Nat)} {ds : List Draft} (h : HasRoom (ps ++ qs) ds) :
    HasRoom ps ds := by
  induction ds with
  | nil => trivial
  | cons d outer ih =>
    refine ⟨(Finset.card_le_card fun o ho => ?_).trans h.1, ih h.2⟩
    simp only [List.mem_toFinset, List.mem_append, List.mem_filter] at ho ⊢
    tauto

/-- There is room for what is captured already. -/
theorem hasRoom_nil {ds : List Draft} (hbounded : ∀ d ∈ ds, d.Bounded) : HasRoom [] ds := by
  induction ds with
  | nil => trivial
  | cons d outer ih =>
    obtain ⟨hd, houter⟩ := List.forall_mem_cons.1 hbounded
    refine ⟨?_, ih houter⟩
    rw [List.filter_nil, List.append_nil]
    exact (List.toFinset_card_le _).trans ((length_origins d outer).trans_le hd.captures)

/-- There is room for a variable in a draft that captures it already, or that captures few. -/
theorem card_captured_le_iff {d : Draft} {outer : List Draft} {place : Nat × Nat}
    (hthreaded : Threaded (d :: outer)) (hsize : d.captures.size ≤ byteCount)
    (hplace : place.1 < outer.length) :
    (origins (d :: outer) ++ [place].filter (·.1 < outer.length)).toFinset.card ≤ byteCount ↔
      place ∈ origins (d :: outer) ∨ d.captures.size < byteCount := by
  have hcard := List.toFinset_card_of_nodup hthreaded.2.1
  rw [length_origins] at hcard
  rw [List.filter_cons_of_pos (by simpa using hplace), List.filter_nil, List.toFinset_append,
    List.toFinset_cons, List.toFinset_nil, Finset.union_insert, Finset.union_empty]
  by_cases hmem : place ∈ origins (d :: outer)
  · rw [Finset.insert_eq_of_mem (List.mem_toFinset.2 hmem), hcard]
    exact ⟨fun _ => .inl hmem, fun _ => hsize⟩
  · rw [Finset.card_insert_of_notMem (by rwa [List.mem_toFinset]), hcard]
    simp only [hmem, false_or]
    exact Iff.rfl

/-- Adding a capture. -/
theorem capture_origin {d e : Draft} {outer : List Draft} {cap : Capture} {place : Nat × Nat}
    (hthreaded : Threaded (d :: e :: outer)) (hd : d.Bounded)
    (hvalid : cap.Valid (e :: outer)) (hplace : cap.origin outer.length (origins (e :: outer)) = place) :
    ((d.capture cap).faults = [] ↔
      place ∈ origins (d :: e :: outer) ∨ d.captures.size < byteCount) ∧
    ((d.capture cap).faults = [] → ∃ captures : Array Capture,
      (d.capture cap).draft = d.withCaptures captures ∧ captures.size ≤ byteCount ∧
      Threaded (d.withCaptures captures :: e :: outer) ∧
      origins (d.withCaptures captures :: e :: outer) = gather (origins (d :: e :: outer)) [place] ∧
      (origins (d.withCaptures captures :: e :: outer))[(d.capture cap).index.toNat]? = some place) := by
  have hmem : cap ∈ d.captures ↔ place ∈ origins (d :: e :: outer) := by
    rw [origins, List.mem_map]
    constructor
    · exact fun h => ⟨cap, Array.mem_toList_iff.2 h, hplace⟩
    · rintro ⟨c, hc, hc'⟩
      have hc := Array.mem_toList_iff.1 hc
      rwa [← origin_injective hthreaded.2.2 (hthreaded.1 c hc) hvalid (hc'.trans hplace.symm)]
  unfold Draft.capture
  cases hidx : d.captures.idxOf? cap with
  | some i =>
    have hi : d.captures[i]? = some cap := by
      rw [Array.idxOf?_eq_map_finIdxOf?_val] at hidx
      obtain ⟨j, hj, rfl⟩ := Option.map_eq_some_iff.1 hidx
      exact Array.getElem?_eq_some_iff.2 ⟨j.isLt, (Array.finIdxOf?_eq_some_iff.1 hj).1⟩
    have hin : cap ∈ d.captures := Array.mem_of_getElem? hi
    refine ⟨iff_of_true rfl (.inl (hmem.1 hin)), fun _ => ⟨d.captures, ?_⟩⟩
    rw [Draft.withCaptures_eq hd.counted]
    refine ⟨rfl, hd.captures, hthreaded, ?_, ?_⟩
    · exact (if_pos (hmem.1 hin)).symm
    · have hlt := (Array.getElem?_eq_some_iff.1 hi).1
      change (origins (d :: e :: outer))[(UInt8.ofNat i).toNat]? = _
      rw [UInt8.toNat_ofNat_of_lt' (hlt.trans_le hd.captures), origins, List.getElem?_map, Array.getElem?_toList, hi]
      exact congrArg some hplace
  | none =>
    have hout : cap ∉ d.captures := Array.idxOf?_eq_none_iff.1 hidx
    by_cases hfull : d.captures.size = byteCount
    · simp only [if_pos hfull]
      refine ⟨iff_of_false nofun ?_, nofun⟩
      rw [← hmem]
      rintro (h | h)
      · exact hout h
      · exact absurd hfull (Nat.ne_of_lt h)
    · have hlt : d.captures.size < byteCount := Nat.lt_of_le_of_ne hd.captures hfull
      simp only [if_neg hfull]
      have horigins : origins (d.withCaptures (d.captures.push cap) :: e :: outer) =
          origins (d :: e :: outer) ++ [place] := by
        rw [origins, Draft.withCaptures, Array.toList_push, List.map_append, List.map_singleton, List.length_cons,
          Nat.add_sub_cancel, hplace]
        rfl
      refine ⟨iff_of_true trivial (.inr hlt), fun _ => ⟨d.captures.push cap, rfl, ?_, ?_, ?_, ?_⟩⟩
      · rw [Array.size_push]
        exact hlt
      · refine ⟨fun c hc => ?_, ?_, hthreaded.2.2⟩
        · exact (Array.mem_push.1 hc).elim (hthreaded.1 c) fun h => h ▸ hvalid
        · rw [horigins]
          refine List.nodup_append.2 ⟨hthreaded.2.1, List.nodup_singleton _, ?_⟩
          rintro o ho o' ho' rfl
          obtain rfl := List.mem_singleton.1 ho'
          exact hout (hmem.2 ho)
      · exact horigins.trans (if_neg fun h => hout (hmem.2 h)).symm
      · rw [horigins, UInt8.toNat_ofNat_of_lt' hlt, ← length_origins d (e :: outer)]
        exact List.getElem?_concat_length ..

/-! ## Finding variables of enclosing functions -/

theorem lookup_lt {name : String} {fs : List FunctionScope} {place : Nat × Nat} {v : Local}
    (h : lookup name fs = some (place, v)) : place.1 < fs.length := by
  induction fs with
  | nil => simp [lookup] at h
  | cons f fs ih =>
    unfold lookup at h
    split at h
    · simp only [Option.some.injEq, Prod.mk.injEq] at h
      simp [← h.1]
    · exact Nat.lt_succ_of_lt (ih h)

/-- A variable is not captured by the functions around its own. -/
theorem absorbs_outside {place : Nat × Nat} {ds : List Draft} (h : ds.length ≤ place.1) :
    Absorbs [place] ds ds := by
  induction ds with
  | nil => exact .nil
  | cons d outer ih =>
    rw [List.length_cons] at h
    refine .cons rfl rfl ?_ (fun slot => ⟨.inl, fun ho => ho.elim id ?_⟩) (ih (by omega))
    · rw [List.filter_cons_of_neg (by simp; omega)]
      rfl
    · intro hmem
      have hlevel := congrArg Prod.fst (List.mem_singleton.1 hmem)
      change outer.length = place.1 at hlevel
      omega

theorem hasRoom_outside {place : Nat × Nat} {ds : List Draft} (h : ds.length ≤ place.1 + 1)
    (hbounded : ∀ d ∈ ds, d.Bounded) : HasRoom [place] ds := by
  induction ds with
  | nil => trivial
  | cons d outer ih =>
    rw [List.length_cons] at h
    obtain ⟨hd, houter⟩ := List.forall_mem_cons.1 hbounded
    refine ⟨?_, ih (by omega) houter⟩
    rw [List.filter_cons_of_neg (by simp; omega)]
    exact (hasRoom_nil (List.forall_mem_cons.2 ⟨hd, houter⟩)).1

/-- The captures of a draft stay what they are when the draft around captures more. -/
theorem threaded_of_prefix {d e e' : Draft} {outer outer' : List Draft} (h : Threaded (d :: e :: outer))
    (h' : Threaded (e' :: outer')) (hlength : outer'.length = outer.length) (hscope : e'.scope = e.scope)
    (hfirst : origins (e :: outer) <+: origins (e' :: outer')) :
    Threaded (d :: e' :: outer') ∧ origins (d :: e' :: outer') = origins (d :: e :: outer) := by
  have hcaptures : e.captures.size ≤ e'.captures.size := by
    rw [← length_origins e outer, ← length_origins e' outer']
    exact hfirst.length_le
  have hlocals : e'.locals.length = e.locals.length := by
    simpa [Draft.scope] using congrArg (fun f => f.locals.length) hscope
  have horigins : origins (d :: e' :: outer') = origins (d :: e :: outer) := by
    change d.captures.toList.map (Capture.origin outer'.length (origins (e' :: outer'))) =
      d.captures.toList.map (Capture.origin outer.length (origins (e :: outer)))
    refine List.map_congr_left fun c hc => ?_
    have hvalid := h.1 c (Array.mem_toList_iff.1 hc)
    change c.index.toNat < if c.isLocal then _ else _ at hvalid
    unfold Capture.origin
    split
    · rw [hlength]
    · rename_i hlocal
      rw [if_neg hlocal, ← length_origins e outer] at hvalid
      rw [List.getElem?_eq_getElem hvalid, List.getElem?_eq_getElem (hvalid.trans_le hfirst.length_le),
        hfirst.getElem hvalid]
  refine ⟨⟨fun c hc => ?_, ?_, h'⟩, horigins⟩
  · have hvalid := h.1 c hc
    change c.index.toNat < if c.isLocal then _ else _ at hvalid
    change c.index.toNat < if c.isLocal then _ else _
    rw [hlocals]
    split
    · rename_i hlocal
      rwa [if_pos hlocal] at hvalid
    · rename_i hlocal
      rw [if_neg hlocal] at hvalid
      omega
  · rw [horigins]
    exact h.2.1

theorem resolve_none {name : String} {d : Draft} {outer : List Draft}
    (h : lookup name (outer.map Draft.scope) = none) : Draft.resolve name d outer = none := by
  induction outer generalizing d with
  | nil => rfl
  | cons e outer ih =>
    rw [List.map_cons, lookup] at h
    cases hfind : Draft.findLocal name e.locals with
    | some found =>
      rw [Draft.scope, findLocal_plain, hfind] at h
      simp at h
    | none =>
      rw [Draft.scope, findLocal_plain, hfind] at h
      rw [Draft.resolve, hfind]
      simp only [ih h]

theorem useFaults_eq_nil_iff (l : Local) : l.useFaults = [] ↔ l.plain.depth ≠ none := by
  unfold Local.useFaults Local.plain
  cases l.depth <;> simp

/-- A variable has been found and captured by every draft further in. -/
structure Draft.Resolution.Captures (r : Draft.Resolution) (place : Nat × Nat) (ds : List Draft) : Prop where
  absorbs : Absorbs [place] ds (r.draft :: r.enclosing)
  threaded : Threaded (r.draft :: r.enclosing)
  bounded : ∀ e ∈ r.draft :: r.enclosing, e.Bounded
  origins : origins ds <+: origins (r.draft :: r.enclosing)
  index : (LoxMachine.origins (r.draft :: r.enclosing))[r.index.toNat]? = some place

section Resolving

variable {name : String} {d e : Draft} {outer : List Draft} {place : Nat × Nat} {v : Local}
  (hthreaded : Threaded (d :: e :: outer)) (hbounded : ∀ f ∈ d :: e :: outer, f.Bounded)

include hthreaded hbounded

/-- A local variable of the next function. -/
theorem resolve_next {slot : Nat} {l : Local} (hfind : Draft.findLocal name e.locals = some (slot, l)) :
    ∃ r, Draft.resolve name d (e :: outer) = some r ∧
      (r.faults = [] ↔ l.plain.depth ≠ none ∧ HasRoom [(outer.length, slot)] (d :: e :: outer)) ∧
      (r.faults = [] → r.Captures (outer.length, slot) (d :: e :: outer)) := by
  obtain ⟨hd, he, houter⟩ : d.Bounded ∧ e.Bounded ∧ ∀ e' ∈ outer, e'.Bounded := by
    simpa only [List.forall_mem_cons] using hbounded
  have hslot := Draft.lt_length_of_findLocal hfind
  have hindex : (UInt8.ofNat slot).toNat = slot := UInt8.toNat_ofNat_of_lt' (hslot.trans_le he.locals)
  have hvalid : Capture.Valid { index := UInt8.ofNat slot, isLocal := true } (e :: outer) := by
    change (UInt8.ofNat slot).toNat < e.locals.length
    rwa [hindex]
  have hplace : Capture.origin outer.length (origins (e :: outer))
      { index := UInt8.ofNat slot, isLocal := true } = (outer.length, slot) := by
    change (outer.length, (UInt8.ofNat slot).toNat) = _
    rw [hindex]
  obtain ⟨hroom, hcapture⟩ := capture_origin hthreaded hd hvalid hplace
  refine ⟨_, by rw [Draft.resolve, hfind], ?_, fun hfaults => ?_⟩
  · rw [List.append_eq_nil_iff, useFaults_eq_nil_iff, hroom,
      ← card_captured_le_iff hthreaded hd.captures (by simp)]
    refine and_congr_right fun _ => ⟨fun hcard => ⟨hcard, ?_⟩, fun h => h.1⟩
    exact hasRoom_outside (by simp) (List.forall_mem_cons.2 ⟨he, houter⟩)
  · obtain ⟨-, hfaults⟩ := List.append_eq_nil_iff.1 hfaults
    obtain ⟨captures, hdraft, hsize, hthreaded', hgathered, hget⟩ := hcapture hfaults
    set e' : Draft := { e with locals := Draft.markCaptured name e.locals } with he'
    have hscope : e'.scope = e.scope := by
      rw [he', Draft.scope, map_plain_markCaptured]
      rfl
    have hlength : e'.locals.length = e.locals.length := Draft.length_markCaptured name e.locals
    have htail : Threaded (e' :: outer) := hthreaded.2.2
    obtain ⟨hthreaded'', horigins⟩ := threaded_of_prefix hthreaded' htail rfl hscope List.prefix_rfl
    refine ⟨?_, ?_, ?_, ?_, ?_⟩
    · rw [hdraft]
      refine .cons rfl rfl ?_ (fun s => ?_) (.cons hscope rfl ?_ (fun s => ?_) (absorbs_outside le_rfl))
      · rw [horigins, hgathered, List.filter_cons_of_pos (by simp), List.filter_nil]
      · refine ⟨.inl, fun ho => ho.elim id fun hmem => ?_⟩
        simp at hmem
      · rw [List.filter_cons_of_neg (by simp)]
        rfl
      · rw [he', Draft.holds_markCaptured hfind, List.mem_singleton]
        simp
    · rw [hdraft]
      exact hthreaded''
    · rw [hdraft]
      simp only [List.forall_mem_cons]
      exact ⟨⟨hd.locals, hsize, rfl, hd.constants⟩,
        ⟨hlength.trans_le he.locals, he.captures, he.counted, he.constants⟩, houter⟩
    · rw [hdraft, horigins, hgathered]
      exact prefix_gather _ _
    · rw [hdraft, horigins]
      exact hget

/-- A variable that the next function captures as well. -/
theorem resolve_further {r : Draft.Resolution} (hfind : Draft.findLocal name e.locals = none)
    (hr : Draft.resolve name e outer = some r) (hlt : place.1 < outer.length)
    (hfaults : r.faults = [] ↔ v.depth ≠ none ∧ HasRoom [place] (e :: outer))
    (hcaptures : r.faults = [] → r.Captures place (e :: outer)) :
    ∃ r, Draft.resolve name d (e :: outer) = some r ∧
      (r.faults = [] ↔ v.depth ≠ none ∧ HasRoom [place] (d :: e :: outer)) ∧
      (r.faults = [] → r.Captures place (d :: e :: outer)) := by
  have hd := hbounded d List.mem_cons_self
  have hresolve : Draft.resolve name d (e :: outer) =
      some ⟨(d.capture { index := r.index, isLocal := false }).index,
        (d.capture { index := r.index, isLocal := false }).draft, r.draft :: r.enclosing,
        r.faults ++ (d.capture { index := r.index, isLocal := false }).faults⟩ := by
    rw [Draft.resolve, hfind]
    simp only [hr]
  have hplace : place.1 < (e :: outer).length := Nat.lt_succ_of_lt hlt
  refine ⟨_, hresolve, ?_⟩
  by_cases hfault : r.faults = []
  · have hr' := hcaptures hfault
    obtain ⟨hscope, houter⟩ : r.draft.scope = e.scope ∧ Absorbs [place] outer r.enclosing := by
      cases hr'.absorbs with
      | cons scope _ _ _ more => exact ⟨scope, more⟩
    obtain ⟨hthreaded', horigins⟩ := threaded_of_prefix hthreaded hr'.threaded houter.length_eq hscope
      hr'.origins
    have hindex := List.getElem?_eq_some_iff.1 hr'.index
    have hvalid : Capture.Valid { index := r.index, isLocal := false } (r.draft :: r.enclosing) := by
      change r.index.toNat < r.draft.captures.size
      rw [← length_origins r.draft r.enclosing]
      exact hindex.1
    have horigin : Capture.origin r.enclosing.length (origins (r.draft :: r.enclosing))
        { index := r.index, isLocal := false } = place := by
      change (origins (r.draft :: r.enclosing))[r.index.toNat]?.getD _ = _
      rw [hr'.index, Option.getD_some]
    obtain ⟨hroom, hcapture⟩ := capture_origin hthreaded' hd hvalid horigin
    refine ⟨?_, fun h => ?_⟩
    · rw [List.append_eq_nil_iff, hroom, horigins, ← card_captured_le_iff hthreaded hd.captures hplace,
        hfaults]
      rw [and_assoc, and_comm (b := _ ≤ _)]
      rfl
    · obtain ⟨-, h⟩ := List.append_eq_nil_iff.1 h
      obtain ⟨captures, hdraft, hsize, hthreaded'', hgathered, hget⟩ := hcapture h
      refine ⟨?_, ?_, ?_, ?_, ?_⟩
      · rw [hdraft]
        refine .cons rfl rfl ?_ (fun s => ⟨.inl, fun ho => ho.elim id fun hmem => ?_⟩) hr'.absorbs
        · have hfilter : [place].filter (·.1 < (e :: outer).length) = [place] :=
            List.filter_cons_of_pos (decide_eq_true hplace)
          rw [hgathered, horigins, hfilter]
        · rw [← List.mem_singleton.1 hmem] at hplace
          exact absurd hplace (Nat.lt_irrefl _)
      · rw [hdraft]
        exact hthreaded''
      · rw [hdraft]
        exact List.forall_mem_cons.2 ⟨⟨hd.locals, hsize, rfl, hd.constants⟩, hr'.bounded⟩
      · rw [hdraft, hgathered, ← horigins]
        exact prefix_gather _ _
      · rw [hdraft]
        exact hget
  · refine ⟨iff_of_false (fun h => hfault (List.append_eq_nil_iff.1 h).1) fun h => ?_, fun h => ?_⟩
    · exact hfault (hfaults.2 ⟨h.1, h.2.2⟩)
    · exact absurd (List.append_eq_nil_iff.1 h).1 hfault

end Resolving

/-- **A variable of an enclosing function** is captured by every draft further in, if there is room. -/
theorem resolve_some {name : String} {d : Draft} {outer : List Draft} {place : Nat × Nat} {v : Local}
    (hthreaded : Threaded (d :: outer)) (hbounded : ∀ e ∈ d :: outer, e.Bounded)
    (h : lookup name (outer.map Draft.scope) = some (place, v)) :
    ∃ r, Draft.resolve name d outer = some r ∧
      (r.faults = [] ↔ v.depth ≠ none ∧ HasRoom [place] (d :: outer)) ∧
      (r.faults = [] → r.Captures place (d :: outer)) := by
  induction outer generalizing d with
  | nil => simp [lookup] at h
  | cons e outer ih =>
    rw [List.map_cons, lookup, Draft.scope, findLocal_plain] at h
    cases hfind : Draft.findLocal name e.locals with
    | some found =>
      simp only [hfind, Option.map_some, Option.some.injEq, Prod.mk.injEq, List.length_map] at h
      obtain ⟨rfl, rfl⟩ := h
      exact resolve_next hthreaded hbounded hfind
    | none =>
      simp only [hfind, Option.map_none] at h
      have hlt := lookup_lt h
      rw [List.length_map] at hlt
      obtain ⟨r, hr, hfaults, hcaptures⟩ := ih hthreaded.2.2 (List.forall_mem_cons.1 hbounded).2 h
      exact resolve_further hthreaded hbounded hfind hr hlt hfaults hcaptures

end LoxMachine
