import Mathlib.Data.List.Forall2
import Mathlib.Data.List.Nodup
import Mathlib.Tactic.Set
import LoxMachine.Proofs.Compile.Primitives

/-!
# Names are resolved lexically

What a name means depends only on the variables in scope in the functions around it, the innermost
first. This holds at every point of every compilation, also after errors.

* `Reached`: the chains of functions that a compilation can be in the middle of, the innermost first.
  `Compile.Along` shows that every action of the compiler leads from one to another.
* `Draft.Binds`: the last variable of a name in a function, and its slot.
* `LeadsTo`: a captured variable, followed outward from function to function.
* `Access.use`: how a use of a name is written once it is known what the name stands for.
* `access_lexical`: a name is the last variable of that name in the function itself; or else a captured
  variable that leads to the last variable of that name in the nearest function around; or else global.
  Every read and every assignment of a name is written so.
-/

namespace LoxMachine

/-! ## Chains of functions -/

/-- The functions that are being compiled, the innermost first. -/
def Compiler.drafts (c : Compiler) : List Draft := c.draft :: c.enclosing

/-- A chain of functions that another one turns into, by what the compiler does to functions. -/
inductive Evolves (ds : List Draft) : List Draft → Prop
  | refl : Evolves ds ds
  | write {d : Draft} {outer : List Draft} (h : Evolves ds (d :: outer)) (chunk : Chunk) :
    Evolves ds ({ d with chunk } :: outer)
  | count {d : Draft} {outer : List Draft} (h : Evolves ds (d :: outer)) :
    Evolves ds ({ d with arity := d.arity + 1 } :: outer)
  | scope {d : Draft} {outer : List Draft} (h : Evolves ds (d :: outer)) (depth : Nat) :
    Evolves ds ({ d with depth } :: outer)
  | forget {d : Draft} {outer : List Draft} (h : Evolves ds (d :: outer)) (leaves : Local → Bool) :
    Evolves ds ({ d with locals := d.locals.dropWhile leaves } :: outer)
  | declare {d : Draft} {outer : List Draft} (h : Evolves ds (d :: outer)) (name : String)
    (room : d.locals.length ≠ byteCount) :
    Evolves ds ({ d with locals := { name, depth := none } :: d.locals } :: outer)
  | settle {d : Draft} {outer : List Draft} {l : Local} {locals : List Local}
    (h : Evolves ds (d :: outer)) (hl : d.locals = l :: locals) (depth : Option Nat) :
    Evolves ds ({ d with locals := { l with depth } :: locals } :: outer)
  | resolve {d : Draft} {outer : List Draft} {r : Draft.Resolution} (h : Evolves ds (d :: outer))
    (name : String) (hr : Draft.resolve name d outer = some r) : Evolves ds (r.draft :: r.enclosing)
  | begin {outer : List Draft} (h : Evolves ds outer) (kind : FunctionKind) (name : Option Handle) :
    Evolves ds (.start kind name :: outer)
  | finish {d e : Draft} {outer : List Draft} (h : Evolves ds (d :: e :: outer)) : Evolves ds (e :: outer)
  /-- After the script there is another one. -/
  | restart {outer : List Draft} (h : Evolves ds outer) : Evolves ds [.start .script none]

theorem Evolves.trans {ds ds' ds'' : List Draft} (h : Evolves ds ds') (h' : Evolves ds' ds'') :
    Evolves ds ds'' := by
  induction h' with
  | refl => exact h
  | write _ chunk ih => exact ih.write chunk
  | count _ ih => exact ih.count
  | scope _ depth ih => exact ih.scope depth
  | forget _ leaves ih => exact ih.forget leaves
  | declare _ name room ih => exact ih.declare name room
  | settle _ hl depth ih => exact ih.settle hl depth
  | resolve _ name hr ih => exact ih.resolve name hr
  | begin _ kind name ih => exact ih.begin kind name
  | finish _ ih => exact ih.finish
  | restart _ ih => exact ih.restart

/-- The chains of functions that a compilation can be in the middle of. -/
def Reached (ds : List Draft) : Prop := Evolves [.start .script none] ds

theorem drafts_errorAt (c : Compiler) (t : Token) (d : Diagnosis) : (c.errorAt t d).drafts = c.drafts := by
  unfold Compiler.errorAt
  split <;> rfl

theorem drafts_pull (ts : List Token) (c : Compiler) : (c.pull ts).drafts = c.drafts := by
  induction ts generalizing c with
  | nil => rfl
  | cons t ts ih =>
    unfold Compiler.pull
    split
    · exact (ih _).trans (drafts_errorAt c _ _)
    · rfl
    · rfl

/-- **Every action of the compiler leads from chain to chain** in the ways above. -/
instance : Compiler.Course fun c c' => Evolves c.drafts c'.drafts where
  refl _ := .refl
  trans := .trans
  report c t d := drafts_errorAt c t d ▸ .refl
  read c := drafts_pull c.rest { c with previous := c.current } ▸ .refl
  calm _ := .refl
  intern _ _ := .refl
  function _ _ := .refl
  record _ _ := .refl
  classes _ _ := .refl
  write _ _ _ _ := .write .refl _
  number _ _ := .write .refl _
  string _ _ := .write .refl _
  constant _ _ := .write .refl _
  count _ := .count .refl
  scope _ depth := .scope .refl depth
  forget _ leaves := .forget .refl leaves
  declare _ name room := .declare .refl name room
  settle c := by
    change Evolves c.drafts ((if c.draft.depth = 0 then c.draft else _) :: c.enclosing)
    split
    · exact .refl
    · split
      · exact .refl
      · rename_i l locals hl
        exact .settle .refl hl _
  resolve _ name _ hr := .resolve .refl name hr
  begin _ kind name := .begin .refl kind (some name)
  finish c := by
    cases henclosing : c.enclosing with
    | nil =>
      rw [Compiler.drafts, Compiler.drafts, henclosing]
      exact .restart .refl
    | cons d enclosing =>
      rw [Compiler.drafts, Compiler.drafts, henclosing]
      exact .finish .refl

/-- A compilation is only ever in the middle of chains that can be reached. -/
theorem reached_script (source : String) (heap : Heap) (roots : Thunk (List Handle)) (fuel : Nat) :
    Reached (Compile.script fuel (Compiler.start source heap roots)).2.drafts :=
  Compile.Along.along (R := fun c c' => Evolves c.drafts c'.drafts) (Compiler.start source heap roots)

/-! ## What every chain keeps -/

/-- A byte can name each variable and each captured variable, and no variable is captured twice. The
number of captured variables is the one that the finished function will have. -/
structure Draft.Countable (d : Draft) : Prop where
  locals : d.locals.length ≤ byteCount
  captures : d.captures.size ≤ byteCount
  nodup : d.captures.toList.Nodup
  counted : d.upvalueCount = d.captures.size

/-- A draft that has captured more variables. Those captured before keep their places. -/
structure Draft.Widened (d d' : Draft) : Prop where
  eq : d' = { d with captures := d'.captures, upvalueCount := d'.upvalueCount }
  before : d.captures.toList <+: d'.captures.toList
  countable : d'.Countable

namespace Draft

theorem Countable.widened {d : Draft} (h : d.Countable) : d.Widened d := ⟨rfl, List.prefix_rfl, h⟩

/-- Adding a captured variable. Only the limit can keep a draft from it. -/
theorem capture_cases {d : Draft} (h : d.Countable) (cap : Capture) :
    d.Widened (d.capture cap).draft ∧
      ((d.capture cap).faults = [] ∧
          (d.capture cap).draft.captures[(d.capture cap).index.toNat]? = some cap ∨
        (d.capture cap).faults = [.tooManyCaptures] ∧ d.captures.size = byteCount) := by
  unfold capture
  cases hidx : d.captures.idxOf? cap with
  | some i =>
    rw [Array.idxOf?_eq_map_finIdxOf?_val] at hidx
    obtain ⟨j, hj, rfl⟩ := Option.map_eq_some_iff.1 hidx
    have hget := (Array.finIdxOf?_eq_some_iff.1 hj).1
    refine ⟨h.widened, .inl ⟨rfl, ?_⟩⟩
    change d.captures[(UInt8.ofNat j.val).toNat]? = some cap
    rw [UInt8.toNat_ofNat_of_lt' (Nat.lt_of_lt_of_le j.isLt h.captures)]
    exact Array.getElem?_eq_some_iff.2 ⟨j.isLt, hget⟩
  | none =>
    have hout : cap ∉ d.captures := Array.idxOf?_eq_none_iff.1 hidx
    by_cases hfull : d.captures.size = byteCount
    · rw [if_pos hfull]
      exact ⟨h.widened, .inr ⟨rfl, hfull⟩⟩
    · have hlt : d.captures.size < byteCount := Nat.lt_of_le_of_ne h.captures hfull
      rw [if_neg hfull]
      dsimp only [withCaptures]
      refine ⟨⟨rfl, ?_, h.locals, ?_, ?_, rfl⟩, .inl ⟨rfl, ?_⟩⟩
      · rw [Array.toList_push]
        exact List.prefix_append _ _
      · rw [Array.size_push]
        exact hlt
      · rw [Array.toList_push]
        refine List.nodup_append.2 ⟨h.nodup, List.nodup_singleton _, ?_⟩
        rintro c hc c' hc' rfl
        exact hout (List.mem_singleton.1 hc' ▸ Array.mem_toList_iff.1 hc)
      · rw [UInt8.toNat_ofNat_of_lt' hlt]
        exact Array.getElem?_push_size

/-! ## The last variable of a name -/

/-- The last variable of a name in a function is `l`. The variables declared after it, `newer`, have other
names, and its slot is the number of those declared before it. -/
structure Binds (d : Draft) (name : String) (newer : List Local) (l : Local) (older : List Local) :
    Prop where
  locals : d.locals = newer ++ l :: older
  named : l.name = name
  newer : ∀ l' ∈ newer, l'.name ≠ name

/-- A function has no variable of a name. -/
def Lacks (d : Draft) (name : String) : Prop := ∀ l ∈ d.locals, l.name ≠ name

theorem findLocal_append {name : String} {newer : List Local} (h : ∀ l ∈ newer, l.name ≠ name)
    (locals : List Local) : findLocal name (newer ++ locals) = findLocal name locals := by
  induction newer with
  | nil => rfl
  | cons l newer ih =>
    obtain ⟨hl, hnewer⟩ := List.forall_mem_cons.1 h
    rw [List.cons_append, findLocal, if_neg hl, ih hnewer]

theorem Lacks.findLocal_eq {d : Draft} {name : String} (h : d.Lacks name) :
    findLocal name d.locals = none := by
  have hnone := findLocal_append h []
  rwa [List.append_nil] at hnone

namespace Binds

variable {d : Draft} {name : String} {newer older : List Local} {l : Local}

theorem findLocal_eq (h : d.Binds name newer l older) :
    findLocal name d.locals = some (older.length, l) := by
  rw [h.locals, findLocal_append h.newer, findLocal, if_pos h.named]

theorem slot_lt (h : d.Binds name newer l older) (hd : d.Countable) : older.length < byteCount :=
  Nat.lt_of_lt_of_le (lt_length_of_findLocal h.findLocal_eq) hd.locals

theorem markCaptured_eq (h : d.Binds name newer l older) :
    markCaptured name d.locals = newer ++ { l with captured := true } :: older := by
  obtain ⟨hlocals, hname, hnewer⟩ := h
  rw [hlocals]
  clear hlocals
  induction newer with
  | nil => rw [List.nil_append, markCaptured, if_pos hname, List.nil_append]
  | cons l' newer ih =>
    obtain ⟨hl', hnewer⟩ := List.forall_mem_cons.1 hnewer
    rw [List.cons_append, markCaptured, if_neg hl', ih hnewer, List.cons_append]

end Binds

end Draft

/-! ## Variables of enclosing functions -/

/-- Followed outward, the captured variable of the first function at the given index is the variable in a
slot of the first function of `place`. -/
inductive LeadsTo : List Draft → (index : Nat) → (place : List Draft) → (slot : Nat) → Prop
  | here {d : Draft} {outer : List Draft} {index : Nat} {slot : UInt8}
    (h : d.captures[index]? = some ⟨slot, true⟩) : LeadsTo (d :: outer) index outer slot.toNat
  | further {d : Draft} {outer place : List Draft} {index slot : Nat} {i : UInt8}
    (h : d.captures[index]? = some ⟨i, false⟩) (more : LeadsTo outer i.toNat place slot) :
    LeadsTo (d :: outer) index place slot

section Resolving

variable {name : String} {e : Draft} {newer older : List Local} {l : Local}

/-- **A variable of an enclosing function** is captured by every function further in. What is found leads
to it, unless one of them captures as many variables as there can be. -/
theorem resolve_leadsTo (he : e.Countable) (hbinds : e.Binds name newer l older) (between rest : List Draft)
    (d : Draft) (hcountable : ∀ f ∈ d :: between, f.Countable) (hlacks : ∀ f ∈ between, f.Lacks name) :
    ∃ r between' faults, Draft.resolve name d (between ++ e :: rest) = some r ∧
      r.faults = l.useFaults ++ faults ∧
      r.enclosing = between' ++ { e with locals := newer ++ { l with captured := true } :: older } :: rest ∧
      List.Forall₂ Draft.Widened (d :: between) (r.draft :: between') ∧
      (faults = [] ∧ LeadsTo (r.draft :: r.enclosing) r.index.toNat
          ({ e with locals := newer ++ { l with captured := true } :: older } :: rest) older.length ∨
        .tooManyCaptures ∈ faults ∧ ∃ f ∈ d :: between, f.captures.size = byteCount) := by
  induction between generalizing d with
  | nil =>
    have hslot : (UInt8.ofNat older.length).toNat = older.length :=
      UInt8.toNat_ofNat_of_lt' (hbinds.slot_lt he)
    set c := d.capture { index := UInt8.ofNat older.length, isLocal := true } with hc
    obtain ⟨hwidened, hcases⟩ : d.Widened c.draft ∧ _ :=
      Draft.capture_cases (hcountable d List.mem_cons_self) _
    have hresolve : Draft.resolve name d ([] ++ e :: rest) = some ⟨c.index, c.draft,
        { e with locals := Draft.markCaptured name e.locals } :: rest, l.useFaults ++ c.faults⟩ := by
      rw [List.nil_append, Draft.resolve, hbinds.findLocal_eq]
    refine ⟨_, [], c.faults, hresolve, rfl, ?_, .cons hwidened .nil, ?_⟩
    · rw [hbinds.markCaptured_eq, List.nil_append]
    · rcases hcases with ⟨hnone, hget⟩ | ⟨hlimit, hfull⟩
      · refine .inl ⟨hnone, ?_⟩
        have hhere : LeadsTo (c.draft :: { e with locals := Draft.markCaptured name e.locals } :: rest) _ _ _ :=
          .here hget
        rw [hslot, hbinds.markCaptured_eq] at hhere
        rw [hbinds.markCaptured_eq]
        exact hhere
      · exact .inr ⟨hlimit ▸ List.mem_singleton_self _, d, List.mem_cons_self, hfull⟩
  | cons f between ih =>
    obtain ⟨hd, hrest⟩ := List.forall_mem_cons.1 hcountable
    obtain ⟨hf, hlacks⟩ := List.forall_mem_cons.1 hlacks
    obtain ⟨r, between', faults, hr, hfaults, henclosing, hwidened, hleads⟩ := ih f hrest hlacks
    set c := d.capture { index := r.index, isLocal := false } with hc
    obtain ⟨hwidened', hcases⟩ : d.Widened c.draft ∧ _ := Draft.capture_cases hd _
    have hresolve : Draft.resolve name d (f :: between ++ e :: rest) =
        some ⟨c.index, c.draft, r.draft :: r.enclosing, r.faults ++ c.faults⟩ := by
      rw [List.cons_append, Draft.resolve, hf.findLocal_eq]
      simp only [hr, hc]
    refine ⟨_, r.draft :: between', faults ++ c.faults, hresolve, ?_, ?_, .cons hwidened' hwidened, ?_⟩
    · rw [hfaults, List.append_assoc]
    · rw [henclosing, List.cons_append]
    · rcases hleads with ⟨hnone, hleads⟩ | ⟨hlimit, g, hg, hfull⟩
      · rcases hcases with ⟨hnone', hget⟩ | ⟨hlimit', hfull⟩
        · exact .inl ⟨by rw [hnone, hnone', List.append_nil], .further hget hleads⟩
        · refine .inr ⟨List.mem_append_right _ ?_, d, List.mem_cons_self, hfull⟩
          exact hlimit' ▸ List.mem_singleton_self _
      · exact .inr ⟨List.mem_append_left _ hlimit, g, List.mem_cons_of_mem _ hg, hfull⟩

/-- A name that no function around has is not found. -/
theorem resolve_lacks (d : Draft) {outer : List Draft} (h : ∀ f ∈ outer, f.Lacks name) :
    Draft.resolve name d outer = none := by
  induction outer generalizing d with
  | nil => rfl
  | cons f outer ih =>
    obtain ⟨hf, houter⟩ := List.forall_mem_cons.1 h
    rw [Draft.resolve, hf.findLocal_eq]
    simp only [ih f houter]

end Resolving

/-- Either a list of variables has none of a name, or there is a last one. -/
theorem Draft.lacks_or_binds (d : Draft) (name : String) :
    d.Lacks name ∨ ∃ newer l older, d.Binds name newer l older := by
  by_cases h : ∀ l ∈ d.locals, l.name ≠ name
  · exact .inl h
  · obtain ⟨l, hl, hname⟩ : ∃ l ∈ d.locals, l.name = name := by
      simpa only [not_forall, not_not, exists_prop] using h
    have hfind : (d.locals.find? (·.name = name)).isSome := List.find?_isSome.2 ⟨l, hl, decide_eq_true hname⟩
    obtain ⟨l', hl'⟩ := Option.isSome_iff_exists.1 hfind
    obtain ⟨hp, newer, older, hlocals, hnewer⟩ := List.find?_eq_some_iff_append.1 hl'
    refine .inr ⟨newer, l', older, hlocals, of_decide_eq_true hp, fun l'' hl'' => ?_⟩
    simpa using hnewer l'' hl''

/-- Either no function of a chain has a name, or there is a nearest one that has. -/
theorem lacks_or_nearest_binds (outer : List Draft) (name : String) :
    (∀ f ∈ outer, f.Lacks name) ∨ ∃ between e rest newer l older, outer = between ++ e :: rest ∧
      (∀ f ∈ between, f.Lacks name) ∧ e.Binds name newer l older := by
  induction outer with
  | nil => exact .inl nofun
  | cons f outer ih =>
    rcases f.lacks_or_binds name with hf | ⟨newer, l, older, hf⟩
    · rcases ih with h | ⟨between, e, rest, newer, l, older, rfl, hbetween, he⟩
      · exact .inl (List.forall_mem_cons.2 ⟨hf, h⟩)
      · exact .inr ⟨f :: between, e, rest, newer, l, older, rfl, List.forall_mem_cons.2 ⟨hf, hbetween⟩, he⟩
    · exact .inr ⟨[], f, outer, newer, l, older, rfl, nofun, hf⟩

/-- Whatever is found, the functions stay countable. -/
theorem Draft.Resolution.countable {name : String} {d : Draft} {outer : List Draft} {r : Draft.Resolution}
    (h : ∀ f ∈ d :: outer, f.Countable) (hr : Draft.resolve name d outer = some r) :
    ∀ f ∈ r.draft :: r.enclosing, f.Countable := by
  rcases lacks_or_nearest_binds outer name with hlacks | ⟨between, e, rest, newer, l, older, rfl, hbetween, he⟩
  · rw [resolve_lacks d hlacks] at hr
    cases hr
  · rw [← List.cons_append] at h
    obtain ⟨hinner, houter⟩ := List.forall_mem_append.1 h
    obtain ⟨hce, hrest⟩ := List.forall_mem_cons.1 houter
    obtain ⟨r', between', faults, hr', -, henclosing, hwidened, -⟩ :=
      resolve_leadsTo hce he between rest d hinner hbetween
    obtain rfl := Option.some.inj (hr.symm.trans hr')
    rw [henclosing, ← List.cons_append]
    refine List.forall_mem_append.2 ⟨?_, List.forall_mem_cons.2 ⟨?_, hrest⟩⟩
    · exact ((List.forall₂_and_left _ _).1 (hwidened.flip.imp fun _ _ h => ⟨h.countable, h⟩)).1
    · refine ⟨?_, hce.captures, hce.nodup, hce.counted⟩
      have hlength := hce.locals
      rw [he.locals, List.length_append, List.length_cons] at hlength
      rwa [List.length_append, List.length_cons]

/-- **Every function in the middle of its compilation** names its variables by bytes, and captures none
of them twice. -/
theorem Reached.countable {ds : List Draft} (h : Reached ds) : ∀ d ∈ ds, d.Countable := by
  have hstart : ∀ kind name, (Draft.start kind name).Countable := fun kind name =>
    ⟨Nat.succ_le_of_lt (by decide), Nat.zero_le _, List.nodup_nil, rfl⟩
  induction h with
  | refl => exact List.forall_mem_singleton.2 (hstart _ _)
  | write _ chunk ih =>
    obtain ⟨hd, houter⟩ := List.forall_mem_cons.1 ih
    exact List.forall_mem_cons.2 ⟨⟨hd.locals, hd.captures, hd.nodup, hd.counted⟩, houter⟩
  | count _ ih =>
    obtain ⟨hd, houter⟩ := List.forall_mem_cons.1 ih
    exact List.forall_mem_cons.2 ⟨⟨hd.locals, hd.captures, hd.nodup, hd.counted⟩, houter⟩
  | scope _ depth ih =>
    obtain ⟨hd, houter⟩ := List.forall_mem_cons.1 ih
    exact List.forall_mem_cons.2 ⟨⟨hd.locals, hd.captures, hd.nodup, hd.counted⟩, houter⟩
  | forget _ leaves ih =>
    obtain ⟨hd, houter⟩ := List.forall_mem_cons.1 ih
    refine List.forall_mem_cons.2 ⟨⟨?_, hd.captures, hd.nodup, hd.counted⟩, houter⟩
    exact Nat.le_trans (List.dropWhile_sublist _).length_le hd.locals
  | declare _ name room ih =>
    obtain ⟨hd, houter⟩ := List.forall_mem_cons.1 ih
    exact List.forall_mem_cons.2 ⟨⟨Nat.lt_of_le_of_ne hd.locals room, hd.captures, hd.nodup, hd.counted⟩, houter⟩
  | settle _ hl depth ih =>
    obtain ⟨hd, houter⟩ := List.forall_mem_cons.1 ih
    refine List.forall_mem_cons.2 ⟨⟨?_, hd.captures, hd.nodup, hd.counted⟩, houter⟩
    have hlength := hd.locals
    rwa [hl] at hlength
  | resolve _ name hr ih => exact Draft.Resolution.countable ih hr
  | begin _ kind name ih => exact List.forall_mem_cons.2 ⟨hstart _ _, ih⟩
  | finish _ ih => exact (List.forall_mem_cons.1 ih).2
  | restart => exact List.forall_mem_singleton.2 (hstart _ _)

/-! ## The meaning of a name -/

namespace Compile

/-- What `access` does, by where the name is found. -/
theorem access_eq (name : String) (c : Compiler) :
    access name c = match Draft.findLocal name c.draft.locals with
      | some (slot, l) => (⟨.getLocal, .setLocal, UInt8.ofNat slot⟩, (l.useFaults.forM error c).2)
      | none =>
        match Draft.resolve name c.draft c.enclosing with
        | some r => (⟨.getUpvalue, .setUpvalue, r.index⟩,
            (r.faults.forM error { c with draft := r.draft, enclosing := r.enclosing }).2)
        | none => (⟨.getGlobal, .setGlobal, (nameConstant name c).1⟩, (nameConstant name c).2) := by
  unfold access
  rw [show ∀ f : Compiler → Compile Access, ((get : Compile Compiler) >>= f) c = f c c from fun _ => rfl]
  cases Draft.findLocal name c.draft.locals with
  | some found => rfl
  | none => cases Draft.resolve name c.draft c.enclosing <;> rfl

/-- How a use of a name is written: as an assignment after the value, if `=` follows where one is allowed,
and else as a read. -/
def Access.use (a : Access) (operand : Precedence → Compile Unit) (canAssign : Bool) (c : Compiler) :
    Opcode × Compiler :=
  if canAssign && c.current.kind = .equal then (a.setter, ((do advance; operand .assignment) c).2)
  else (a.getter, c)

theorem code_emitWith (op : Opcode) (byte : UInt8) (c : Compiler) :
    (emitWith op byte c).2.draft.chunk.code = c.draft.chunk.code ++ #[op.toByte, byte] :=
  rfl

theorem readVariable_eq (name : String) (c : Compiler) :
    readVariable name c = emitWith (access name c).1.getter (access name c).1.operand (access name c).2 :=
  rfl

/-- A use of a name is written by its access. -/
theorem name_eq (operand : Precedence → Compile Unit) (canAssign : Bool) (c : Compiler) :
    Compile.name operand canAssign c =
      emitWith ((access c.previous.text c).1.use operand canAssign (access c.previous.text c).2).1
        (access c.previous.text c).1.operand
        ((access c.previous.text c).1.use operand canAssign (access c.previous.text c).2).2 := by
  let a := (access c.previous.text c).1
  let c₁ := (access c.previous.text c).2
  have hname : Compile.name operand canAssign c =
      (if canAssign && c₁.current.kind = .equal then do
        advance
        operand .assignment
        emitWith a.setter a.operand
      else emitWith a.getter a.operand : Compile Unit) c₁ := rfl
  rw [hname, Access.use]
  split
  · rfl
  · rfl

/-- **Names are resolved lexically.** In whatever functions a compilation is, a name stands for the last
variable of that name in the function itself. Otherwise it stands for the last variable of that name in the
nearest function around: every function in between captures it, it is marked as captured, and followed
outward the answer leads to it, unless one of those functions has no captured variable left to use, which
is reported. Otherwise the name is global. Every read of the name, and every use of it that may be an
assignment, is written with that answer. No function ever captures a variable twice, and each one counts
those that it captures. -/
theorem access_lexical {c : Compiler} (hc : Reached c.drafts) (name : String) :
    (∀ newer l older, c.draft.Binds name newer l older → older.length < byteCount ∧
      access name c =
        (⟨.getLocal, .setLocal, UInt8.ofNat older.length⟩, (l.useFaults.forM error c).2)) ∧
    (∀ between e rest newer l older, c.enclosing = between ++ e :: rest →
      (∀ d ∈ c.draft :: between, d.Lacks name) → e.Binds name newer l older →
      ∃ index d between' faults,
        access name c = (⟨.getUpvalue, .setUpvalue, index⟩,
          ((l.useFaults ++ faults).forM error { c with
            draft := d
            enclosing := between' ++
              { e with locals := newer ++ { l with captured := true } :: older } :: rest }).2) ∧
        List.Forall₂ Draft.Widened (c.draft :: between) (d :: between') ∧
        (faults = [] ∧
            LeadsTo (d :: between' ++
                { e with locals := newer ++ { l with captured := true } :: older } :: rest) index.toNat
              ({ e with locals := newer ++ { l with captured := true } :: older } :: rest) older.length ∨
          .tooManyCaptures ∈ faults ∧ ∃ f ∈ c.draft :: between, f.captures.size = byteCount)) ∧
    ((∀ d ∈ c.drafts, d.Lacks name) → access name c =
      (⟨.getGlobal, .setGlobal, (nameConstant name c).1⟩, (nameConstant name c).2)) ∧
    (∀ a c₁, access name c = (a, c₁) →
      (readVariable name c).2.draft.chunk.code = c₁.draft.chunk.code ++ #[a.getter.toByte, a.operand] ∧
      (c.previous.text = name → ∀ operand canAssign op c₂, a.use operand canAssign c₁ = (op, c₂) →
        (Compile.name operand canAssign c).2.draft.chunk.code =
          c₂.draft.chunk.code ++ #[op.toByte, a.operand])) ∧
    ∀ d ∈ (access name c).2.drafts,
      d.captures.toList.Nodup ∧ d.function.upvalueCount = d.captures.size := by
  have hcountable := hc.countable
  refine ⟨fun newer l older hbinds => ⟨hbinds.slot_lt (hcountable _ List.mem_cons_self), ?_⟩,
    fun between e rest newer l older houter hlacks hbinds => ?_, fun hlacks => ?_,
    fun a c₁ haccess => ⟨?_, fun hname operand canAssign op c₂ huse => ?_⟩, fun d hd => ?_⟩
  · rw [access_eq, hbinds.findLocal_eq]
  · obtain ⟨hd, hbetween⟩ := List.forall_mem_cons.1 hlacks
    rw [Compiler.drafts, houter, ← List.cons_append] at hcountable
    obtain ⟨hinner, houter'⟩ := List.forall_mem_append.1 hcountable
    obtain ⟨r, between', faults, hr, hfaults, henclosing, hwidened, hleads⟩ :=
      resolve_leadsTo (List.forall_mem_cons.1 houter').1 hbinds between rest c.draft hinner hbetween
    refine ⟨r.index, r.draft, between', faults, ?_, hwidened, ?_⟩
    · rw [access_eq, hd.findLocal_eq, houter, hr]
      simp only [hfaults, henclosing]
    · rw [henclosing] at hleads
      exact hleads
  · obtain ⟨hd, houter⟩ := List.forall_mem_cons.1 hlacks
    rw [access_eq, hd.findLocal_eq, resolve_lacks c.draft houter]
  · rw [readVariable_eq, haccess, code_emitWith]
  · rw [name_eq, hname, haccess, huse, code_emitWith]
  · have hevolves : Evolves c.drafts (access name c).2.drafts :=
      Along.along (R := fun c c' => Evolves c.drafts c'.drafts) c
    have hcounted := Reached.countable (hc.trans hevolves) d hd
    exact ⟨hcounted.nodup, hcounted.counted⟩

/-- A function with two variables `a`, of which one hides the other. -/
def shadowing : Draft :=
  { Draft.start .function none with
    locals := [{ name := "a", depth := some 2 }, { name := "a", depth := some 1 },
      { name := "", depth := some 0 }]
    depth := 2 }

/-- In a function in a function in that function. -/
def nested : Compiler :=
  { Compiler.start "" {} (Thunk.pure []) with
    draft := .start .function none
    enclosing := [.start .function none, shadowing, .start .script none] }

/-- The innermost function reaches the variable that hides the other one, through the function between. -/
theorem access_lexical_hidden :
    Reached nested.drafts ∧ ∃ index d e f script, (access "a" nested).1 = ⟨.getUpvalue, .setUpvalue, index⟩ ∧
      (access "a" nested).2.drafts = [d, e, f, script] ∧
      LeadsTo [d, e, f, script] index.toNat [f, script] 2 ∧
      f.locals.map (fun l => (l.depth, l.captured)) = [(some 2, true), (some 1, false), (some 0, false)] := by
  have houter : Reached [shadowing, .start .script none] := by
    have hfirst := (((Evolves.refl : Evolves [Draft.start .script none] _).begin .function none).scope 1).declare
      "a" (by decide)
    have hsecond := ((hfirst.settle rfl (some 1)).scope 2).declare "a" (by decide)
    exact hsecond.settle rfl (some 2)
  have hreached : Reached nested.drafts := (houter.begin .function none).begin .function none
  have hbinds : shadowing.Binds "a" [] { name := "a", depth := some 2 }
      [{ name := "a", depth := some 1 }, { name := "", depth := some 0 }] := ⟨rfl, rfl, nofun⟩
  have hlacks : ∀ d ∈ nested.draft :: [Draft.start .function none], d.Lacks "a" := by
    unfold Draft.Lacks
    decide
  obtain ⟨index, d, between', faults, haccess, hwidened, hleads⟩ :=
    (access_lexical hreached "a").2.1 [.start .function none] _ [.start .script none] _ _ _ rfl hlacks hbinds
  obtain ⟨e, rfl⟩ : ∃ e, between' = [e] := by
    cases hwidened with
    | cons _ hbetween =>
      cases hbetween with
      | cons _ hnil =>
        cases hnil
        exact ⟨_, rfl⟩
  rcases hleads with ⟨rfl, hleads⟩ | ⟨-, f, hf, hfull⟩
  · exact ⟨hreached, index, d, e, _, _, congrArg Prod.fst haccess,
      (congrArg (fun r => r.2.drafts) haccess).trans rfl, hleads, rfl⟩
  · exact absurd hfull (by revert f; decide)

end Compile

end LoxMachine
