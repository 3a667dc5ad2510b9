import LoxMachine.Proofs.Compile.Checked
import LoxMachine.Proofs.Compile.Levels
import LoxMachine.Proofs.Machine.Listing
import LoxMachine.Proofs.Twin.Parsing

/-!
# When the checks pass

* `Compiler.Fine` is what the checks rely on at every point: the tokens are in order, and what the functions
  under construction refer to exists in a healthy heap.
* `Checked.Passing b x' x`: in fine states within the bounds `b`, the action `x'` does not fail and does what
  `x` does. A bound says how many tokens are left at most, how much code there is and how many scopes are open
  at least.
* `Passing.bind`, `Passing.accept`, `Passing.jump` and others put actions together: a token taken is one less,
  a jump written makes room for its distance.
* `Checked.Parses k x' x`: with less than `k` tokens left the checks of the parser `x'` pass, and `x` takes one.
-/

namespace LoxMachine

open Compile (Blind Along Takes)

/-! ## Fine states -/

namespace Compiler

/-- The tokens are in order, and what the drafts refer to exists. -/
structure Fine (c : Compiler) : Prop where
  fed : c.Fed
  grounded : ∃ o R, c.Twin o R c

/-- A fine state that is level with another one, and has no more tokens left. -/
structure Onward (c c' : Compiler) : Prop where
  fine : c'.Fine
  left : c'.left ≤ c.left
  level : c.Level c'

variable {α : Type} {c : Compiler} {x : Compile α}

theorem Fine.after (hc : c.Fine) (x : Compile α) [hblind : Blind x] [hfeeds : Along Feeds x] :
    (x c).2.Fine ∧ (x c).2.left ≤ c.left := by
  obtain ⟨hfed, o, R, htwin⟩ := hc
  obtain ⟨hfed', hleft⟩ := hfeeds.along c hfed
  obtain ⟨-, S, htwin'⟩ := hblind.agree htwin
  exact ⟨⟨hfed', o, S, htwin'⟩, hleft⟩

end Compiler

/-- An action that leads from any fine state onward. -/
class Compile.Regular {α : Type} (x : Compile α) : Prop where
  onward {c : Compiler} : c.Fine → c.Onward (x c).2

instance {α : Type} (x : Compile α) [Blind x] [Along Compiler.Feeds x] [hlevel : Along Compiler.Level x] :
    x.Regular :=
  ⟨fun {c} hc => ⟨(hc.after x).1, (hc.after x).2, hlevel.along c⟩⟩

namespace Checked

open Compile (Regular)

/-! ## Putting checked actions together -/

/-- How many tokens are left at most, how much code there is and how many scopes are open at least, and whether
a superclass of the class around has opened one of them. -/
structure Bounds where
  left : Nat
  size : Nat := 0
  depth : Nat := 0
  superScope : Bool := false

namespace Bounds

/-- One token has been taken. -/
def taken (b : Bounds) : Bounds := { b with left := b.left - 1 }

/-- There is room for the distance of a jump at `offset`. -/
def jump (b : Bounds) (offset : Nat) : Bounds := { b with size := max b.size (offset + 2) }

/-- One more scope has been opened. -/
def scope (b : Bounds) : Bounds := { b with depth := b.depth + 1 }

/-- The state is within the bounds. -/
structure Holds (b : Bounds) (c : Compiler) : Prop where
  left : c.left < b.left
  size : b.size ≤ c.draft.chunk.size
  depth : b.depth ≤ c.draft.depth
  superScope : b.superScope = true → c.classes.head?.any (·.hasSuperclass) = true → 0 < c.draft.depth

theorem Holds.onward {b : Bounds} {c c' : Compiler} (h : b.Holds c) (ho : c.Onward c') : b.Holds c' where
  left := ho.left.trans_lt h.left
  size := h.size.trans ho.level.size
  depth := h.depth.trans_eq ho.level.depth.symm
  superScope hb hclass := by
    rw [ho.level.classes] at hclass
    exact (h.superScope hb hclass).trans_eq ho.level.depth.symm

/-- Only the tokens left are known. -/
def loose (b : Bounds) : Bounds := ⟨b.left, 0, 0, false⟩

theorem holds_of_left {k : Nat} {c : Compiler} (h : c.left < k) : (⟨k, 0, 0, false⟩ : Bounds).Holds c :=
  ⟨h, Nat.zero_le _, Nat.zero_le _, nofun⟩

end Bounds

variable {α β : Type} {b : Bounds} {x' : Checked α} {x : Compile α} {f' : α → Checked β}
  {f : α → Compile β} {c : Compiler} {k : Nat}

/-- In fine states within the bounds the checks pass. -/
def Passing (b : Bounds) (x' : Checked α) (x : Compile α) : Prop :=
  ∀ c, c.Fine → b.Holds c → x' c = some (x c)

theorem bind_eq (h : x' c = some (x c)) (hf : f' (x c).1 (x c).2 = some (f (x c).1 (x c).2)) :
    (x' >>= f') c = some ((x >>= f) c) := by
  change (x' c).bind (fun p => f' p.1 p.2) = _
  rw [h]
  exact hf

theorem guard_eq {p : Prop} [Decidable p] (hp : p) {y : Unit → Checked α} :
    ((guard p : Checked Unit) >>= y) c = y () c := by
  rw [guard, if_pos hp]
  rfl

namespace Passing

/-- What has no checks passes. -/
theorem plain (x : Compile α) : Passing b (liftM x) x := fun _ _ _ => rfl

theorem pure (a : α) : Passing b (Pure.pure a) (Pure.pure a) := fun _ _ _ => rfl

/-- What follows passes, once the first action has in this state. -/
theorem bind_at [hx : Regular x] (h : x' c = some (x c)) (hf : ∀ a, Passing b (f' a) (f a)) (hc : c.Fine)
    (hb : b.Holds c) : (x' >>= f') c = some ((x >>= f) c) := by
  have ho := hx.onward hc
  exact bind_eq h (hf _ _ ho.fine (hb.onward ho))

theorem bind [Regular x] (h : Passing b x' x) (hf : ∀ a, Passing b (f' a) (f a)) :
    Passing b (x' >>= f') (x >>= f) := fun c hc hb => bind_at (h c hc hb) hf hc hb

/-- An action without checks, and what follows. -/
theorem step [Regular x] (hf : ∀ a, Passing b (f' a) (f a)) : Passing b (liftM x >>= f') (x >>= f) :=
  (plain x).bind hf

/-- Reading the state. -/
theorem get {f' : Compiler → Checked β} {f : Compiler → Compile β} (hf : ∀ c, Passing b (f' c) (f c)) :
    Passing b (MonadState.get >>= f') (MonadState.get >>= f) := fun c hc hb => hf c c hc hb

/-- What is opened is not known of the states before. -/
theorem loose {x : Compile α} [Blind x] [Along Compiler.Feeds x] (hf : ∀ a, Passing b.loose (f' a) (f a)) :
    Passing b (liftM x >>= f') (x >>= f) := fun c hc hb => by
  obtain ⟨hfine, hleft⟩ := hc.after x
  exact bind_eq rfl (hf _ _ hfine (Bounds.holds_of_left (hleft.trans_lt hb.left)))

/-- What is known of the states after the first action is shown apart. -/
theorem into (b' : Bounds) {P : Compiler → Prop} [Blind x] [Along Compiler.Feeds x] (h : Passing b x' x)
    (hx : ∀ c, P (x c).2) (hP : ∀ c, c.left < b.left → P c → b'.Holds c) (hf : ∀ a, Passing b' (f' a) (f a)) :
    Passing b (x' >>= f') (x >>= f) := fun c hc hb => by
  obtain ⟨hfine, hleft⟩ := hc.after x
  exact bind_eq (h c hc hb) (hf _ _ hfine (hP _ (hleft.trans_lt hb.left) (hx c)))

/-- What follows has no checks. -/
theorem unchecked (h : Passing b x' x) (hf : ∀ a c, f' a c = some (f a c)) : Passing b (x' >>= f') (x >>= f) :=
  fun c hc hb => bind_eq (h c hc hb) (hf _ _)

theorem ite {p : Prop} [Decidable p] {y' : Checked α} {y : Compile α} (hx : Passing b x' x)
    (hy : Passing b y' y) : Passing b (if p then x' else y') (if p then x else y) := by
  split
  · exact hx
  · exact hy

end Passing

/-! ## Tokens -/

/-- Tokens are counted, to be compared later. -/
theorem Passing.count {f' : Nat → Checked β} {y : Compile β}
    (h : ∀ n < b.left, Passing { b with left := n + 1 } (f' n) y) :
    Passing b (left >>= f') y := fun c hc hb =>
  h c.left hb.left c hc ⟨Nat.lt_succ_self _, hb.size, hb.depth, hb.superScope⟩

/-- The check that there are less tokens than before. -/
theorem Passing.fewer {n : Nat} {y' : Unit → Checked β} {y : Compile β} (hn : b.left ≤ n)
    (h : Passing b (y' ()) y) :
    Passing b (left >>= fun m => (guard (m < n) : Checked Unit) >>= y') y := fun c hc hb => by
  have hlt : c.left < n := hb.left.trans_le hn
  change ((guard (c.left < n) : Checked Unit) >>= y') c = _
  rw [guard_eq hlt]
  exact h c hc hb

/-- A token accepted is one less. -/
theorem Passing.accept (kind : TokenKind) (hkind : kind ≠ .eof) {f' : Bool → Checked β} {f : Bool → Compile β}
    (htrue : Passing b.taken (f' true) (f true)) (hfalse : Passing b (f' false) (f false)) :
    Passing b (liftM (Compile.accept kind) >>= f') (Compile.accept kind >>= f) := fun c hc hb => by
  have ho := Regular.onward (x := Compile.accept kind) hc
  refine bind_eq rfl ?_
  rw [Compile.accept_eq_ite] at ho ⊢
  by_cases h : c.current.kind = kind
  · rw [if_pos h] at ho ⊢
    have hne : c.left ≠ 0 := by
      rw [Ne, hc.fed.left_eq_zero_iff, h]
      exact hkind
    have hleft := (Compile.takes_advance c ⟨hc.fed, le_rfl⟩).left hne
    have hb' := hb.onward ho
    refine htrue _ ho.fine ⟨?_, hb'.size, hb'.depth, hb'.superScope⟩
    exact hleft.trans_le (Nat.le_sub_one_of_lt hb.left)
  · rw [if_neg h]
    exact hfalse c hc hb

/-! ## Checks -/

/-- A call that takes a token passes the check that it does. -/
theorem taking_eq (h : x' c = some (x c)) (hc : c.Fine) (ht : Takes c.left x) : taking x' c = some (x c) := by
  have htakes : c.left = 0 ∨ (x c).2.left < c.left :=
    or_iff_not_imp_left.2 (ht c ⟨hc.fed, le_rfl⟩).left
  unfold taking
  change (x' c).bind _ = _
  rw [h]
  change ((guard (c.left = 0 ∨ (x c).2.left < c.left) : Checked Unit) >>= fun _ => Pure.pure _) (x c).2 = _
  rw [guard_eq htakes]
  rfl

/-- **A loop does not run out of steps**, if every round begins before the end and takes a token. -/
theorem loop_passing {condition : Compile Bool} {body' : Checked Unit} {body : Compile Unit} {fuel : Nat}
    [hcondition : Regular condition] [hbody : Regular body]
    (hleft : ∀ c, c.Fine → (condition c).1 = true → (condition c).2.left ≠ 0)
    (hpass : Passing b body' body) (htakes : ∀ n < b.left, Takes n body)
    (hfuel : b.left ≤ fuel) : Passing b (loop condition body' fuel) (Compile.loop condition body fuel) := by
  intro c hc hb
  replace hfuel := hb.left.trans_le hfuel
  induction fuel generalizing c with
  | zero => omega
  | succ n ih =>
    unfold loop Compile.loop
    refine bind_eq rfl ?_
    have ho := hcondition.onward hc
    have hb₁ := hb.onward ho
    have hne := hleft c hc
    generalize condition c = p at ho hb₁ hne ⊢
    obtain ⟨test, c₁⟩ := p
    dsimp only at ho hb₁ hne ⊢
    cases test with
    | false => rfl
    | true =>
      have heq := hpass c₁ ho.fine hb₁
      have ht := htakes c₁.left hb₁.left
      have ho₁ := hbody.onward ho.fine
      have hlt := (ht c₁ ⟨ho.fine.fed, le_rfl⟩).left (hne rfl)
      have := ho.left
      rw [if_pos rfl, if_pos rfl]
      change ((guard (c₁.left ≠ 0) : Checked Unit) >>= fun _ => taking body' >>= fun _ =>
        loop condition body' n) c₁ = _
      rw [guard_eq (hne rfl)]
      exact bind_eq (taking_eq heq ho.fine ht) (ih _ ho₁.fine (hb₁.onward ho₁) (by omega))

/-- The answer is a place in the code. -/
theorem Passing.place [hx : Regular x] {place : α → Nat} {n : Nat} (h : Passing b x' x)
    (hplace : Compile.Places place n x) (hn : n ≤ b.size)
    (hf : ∀ a, Passing { b with size := max b.size (place a) } (f' a) (f a)) :
    Passing b (x' >>= f') (x >>= f) := fun c hc hb => by
  have ho := hx.onward hc
  have hb' := hb.onward ho
  exact bind_eq (h c hc hb) (hf _ _ ho.fine ⟨hb'.left, max_le hb'.size (hplace c (hn.trans hb.size)), hb'.depth,
    hb'.superScope⟩)

/-- **A jump has room for its distance.** -/
theorem Passing.jump {op : Opcode} {f' : Nat → Checked β} {f : Nat → Compile β}
    (hf : ∀ offset, Passing (b.jump offset) (f' offset) (f offset)) :
    Passing b (emitJump op >>= f') (Compile.emitJump op >>= f) := by
  refine .place (fun c _ _ => ?_) (Compile.emitJump_places op 0) (Nat.zero_le _) hf
  have hplace : 2 ≤ (Compile.emitJump op c).2.draft.chunk.size :=
    (Nat.le_add_left _ _).trans (Compile.emitJump_places op 0 c (Nat.zero_le _))
  change ((guard (2 ≤ (Compile.emitJump op c).2.draft.chunk.size) : Checked Unit) >>= fun _ => Pure.pure _)
    (Compile.emitJump op c).2 = _
  rw [guard_eq hplace]
  rfl

/-- The place that a jump leads back to is not after the code. -/
theorem Passing.codeSize {f' : Nat → Checked β} {f : Nat → Compile β}
    (hf : ∀ start, Passing { b with size := max b.size start } (f' start) (f start)) :
    Passing b (liftM Compile.codeSize >>= f') (Compile.codeSize >>= f) :=
  .place (.plain _) (Compile.codeSize_places 0) (Nat.zero_le _) hf

theorem patchJump_passing {offset : Nat} (h : offset + 2 ≤ b.size) :
    Passing b (patchJump offset) (Compile.patchJump offset) := fun c _ hb => by
  change ((guard (offset + 2 ≤ c.draft.chunk.size) : Checked Unit) >>= fun _ => _) c = _
  rw [guard_eq (h.trans hb.size)]
  rfl

theorem emitLoop_passing {start : Nat} (h : start ≤ b.size) :
    Passing b (emitLoop start) (Compile.emitLoop start) := fun c _ hb => by
  change ((guard (start ≤ c.draft.chunk.size) : Checked Unit) >>= fun _ => _) c = _
  rw [guard_eq (h.trans hb.size)]
  rfl

/-- A scope that has been opened. -/
theorem Passing.scope {f' : Unit → Checked β} {f : Unit → Compile β}
    (hf : Passing b.scope (f' ()) (f ())) :
    Passing b (liftM Compile.beginScope >>= f') (Compile.beginScope >>= f) := fun _ hc hb =>
  bind_eq rfl (hf _ (hc.after Compile.beginScope).1 ⟨hb.left, hb.size, Nat.succ_le_succ hb.depth,
    fun _ _ => Nat.succ_pos _⟩)

theorem endScope_eq (h : 0 < c.draft.depth) : endScope c = some (Compile.endScope c) := by
  change ((guard (0 < c.draft.depth) : Checked Unit) >>= fun _ => _) c = _
  rw [guard_eq h]
  rfl

theorem endScope_passing (h : 0 < b.depth) : Passing b endScope Compile.endScope :=
  fun _ _ hb => endScope_eq (h.trans_le hb.depth)

theorem access_passing (name : String) : Passing b (access name) (Compile.access name) := fun c _ _ => by
  have hindexes : ∀ d ∈ c.draft :: c.enclosing, Indexes name d := fun _ _ _ hfound => by
    rw [UInt8.toNat_ofNat']
    exact (Nat.mod_le _ _).trans_lt (Draft.lt_length_of_findLocal hfound)
  change ((guard _ : Checked Unit) >>= fun _ => _) c = _
  rw [guard_eq hindexes]
  rfl

theorem readVariable_passing (name : String) : Passing b (readVariable name) (Compile.readVariable name) :=
  (access_passing name).bind fun _ => .plain _

theorem listing_isOk {heap : Heap} {d : Draft} (hdisplays : Listing.Displays heap d.chunk)
    (hname : ∀ n, d.name = some n → heap.IsString n) :
    (listing heap d).isOk = true := by
  have htitle : ∃ title, Listing.title heap d.function = .ok title := by
    unfold Listing.title
    split
    · rename_i n hn
      obtain ⟨text, bytes, hcell⟩ := hname n hn
      unfold Heap.contents
      rw [Heap.string_of_cell? hcell]
      exact ⟨_, rfl⟩
    · exact ⟨_, rfl⟩
  obtain ⟨title, htitle⟩ := htitle
  obtain ⟨text, htext⟩ := Listing.chunk_ok hdisplays title
  unfold listing
  rw [htitle]
  change (Listing.chunk heap d.chunk title).isOk = true
  rw [htext]
  rfl

/-- **A finished function can be listed.** -/
theorem endFunction_passing : Passing b endFunction Compile.endFunction := fun c hc _ => by
  obtain ⟨o, R, htwin⟩ := hc.grounded
  obtain ⟨S, hd, hc'⟩ := Compile.endFunction_twin htwin
  have hdisplays : Listing.Displays (Compile.endFunction c).2.heap (Compile.endFunction c).1.chunk :=
    fun v hv => by
      have hlive : v.In (Compile.endFunction c).2.heap.Live := fun x hx =>
        hd.contains hc'.carries.twin (Draft.mem_handles.2 (.inr (hx ▸ hv)))
      exact ⟨hc'.healthy.display hlive, hlive⟩
  change ((guard (listing (Compile.endFunction c).2.heap (Compile.endFunction c).1).isOk : Checked Unit) >>=
    fun _ => Pure.pure (Compile.endFunction c).1) (Compile.endFunction c).2 = _
  rw [guard_eq (listing_isOk hdisplays hd.fit)]
  rfl

/-! ## Parsers -/

/-- With less than `k` tokens left the checks of `x'` pass, and `x` takes one. -/
structure Parses (k : Nat) (x' : Checked Unit) (x : Compile Unit) : Prop where
  passes : ∀ c, c.Fine → c.left < k → x' c = some (x c)
  takes : ∀ n < k, Takes n x

namespace Parses

variable {x' : Checked Unit} {x : Compile Unit}

theorem passing (h : Parses k x' x) (hb : b.left ≤ k) : Passing b x' x := fun c hc hb' =>
  h.passes c hc (hb'.left.trans_le hb)

theorem mono (h : Parses k x' x) {j : Nat} (hj : j ≤ k) : Parses j x' x :=
  ⟨fun c hc hlt => h.passes c hc (hlt.trans_le hj), fun n hn => h.takes n (hn.trans_le hj)⟩

/-- A call with the check that it takes a token. -/
theorem of_taking (hpass : Passing ⟨k, 0, 0, false⟩ x' x) (htakes : ∀ n < k, Takes n x) :
    Parses k (taking x') x :=
  ⟨fun c hc hlt => taking_eq (hpass c hc (Bounds.holds_of_left hlt)) hc (htakes _ hlt), htakes⟩

end Parses

end Checked

end LoxMachine
