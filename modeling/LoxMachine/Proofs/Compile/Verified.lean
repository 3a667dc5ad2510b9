import LoxMachine.Proofs.Compile.Declarations

/-!
# Compiled sources are verified

* `Source.eof_mem_tokens`: the tokens of a source end with `eof`, so that a parser which reads on
  comes to it.
* `compile_compiled`: what `compile` answers is a compiled function.
* `compile_verified`: every function in the tree of its constants passes the verifier.
-/

namespace LoxMachine

/-! ## The tokens of a source -/

namespace Source

theorem length_rest_skip_le (inComment : Bool) (line : Nat) (cs : List Char) :
    (skip inComment line cs).rest.length ≤ cs.length := by
  fun_induction skip inComment line cs with
  | case1 => exact le_rfl
  | case2 _ _ cs ih => exact ih.trans (Nat.le_succ _)
  | case3 _ c cs _ ih => exact ih.trans (Nat.le_succ _)
  | case4 _ _ c cs _ _ _ ih => exact ih.trans (Nat.le_succ _)
  | case5 _ _ c cs _ _ _ _ ih => exact ih.trans (Nat.le_succ _)
  | case6 => exact le_rfl

/-- A token that is not the end takes a character. -/
theorem length_rest_next_lt (s : Source) (h : s.next.1.kind ≠ .eof) :
    s.next.2.rest.length < s.rest.length := by
  have hskip := length_rest_skip_le false s.line s.rest
  unfold next at h ⊢
  split at h
  · exact absurd rfl h
  · rename_i c rest start heq
    rw [heq] at hskip
    simp only [List.length_drop, List.length_cons] at hskip ⊢
    omega

theorem eof_mem_tokensOnto (n : Nat) (taken : List Token) (s : Source) (h : s.rest.length < n) :
    ∃ t ∈ tokensOnto n taken s, t.kind = .eof := by
  induction n generalizing taken s with
  | zero => omega
  | succ n ih =>
    unfold tokensOnto
    dsimp only
    split
    · rename_i heof
      exact ⟨_, List.mem_cons_self, heof⟩
    · rename_i hne
      have hlt := length_rest_next_lt s hne
      exact ih _ _ (by omega)

theorem eof_mem_tokens (s : Source) : ∃ t ∈ s.tokens, t.kind = .eof := by
  obtain ⟨t, ht, heof⟩ := eof_mem_tokensOnto (s.rest.length + 1) [] s (Nat.lt_succ_self _)
  exact ⟨t, List.mem_reverse.2 ht, heof⟩

end Source

/-! ## The script -/

namespace Compile

variable {source : String} {heap heap' : Heap} {roots : Thunk (List Handle)} {h : Handle}

/-- The first token. -/
theorem advance_start_ends (ht : heap.Tidy) :
    Ends advance (Compiler.start source heap roots) fun _ c => c.Sound ∧
      c.draft = .start .script none ∧ c.enclosing = [] ∧
        c.left ≤ (Compiler.start source heap roots).rest.length := by
  intro herr
  obtain ⟨t₀, hmem, heof⟩ := Source.eof_mem_tokens (.ofString source)
  have hdrafts : ∀ d ∈ [Draft.start .script none], d.Sound heap := fun d hd => by
    rw [List.mem_singleton.1 hd]
    exact Draft.sound_start .script fun _ hn => by cases hn
  set c := Compiler.start source heap roots
  cases hrest : c.rest with
  | nil =>
    change t₀ ∈ c.rest at hmem
    simp [hrest] at hmem
  | cons t ts =>
    change t₀ ∈ c.rest at hmem
    rw [hrest] at hmem
    have hdo : (advance c).2 = Compiler.pull (t :: ts) { c with previous := c.current } := by
      rw [← hrest]
      rfl
    rw [hdo] at herr ⊢
    rcases pull_cons (c := { c with previous := c.current }) rfl herr with ⟨hk, heq⟩ | ⟨hk, heq⟩
    · rw [heq]
      refine ⟨⟨rfl, ⟨⟨t, List.mem_singleton_self t, hk⟩, fun _ => ⟨t, [], rfl, hk⟩⟩, ht, hdrafts,
        rfl⟩, rfl, rfl, ?_⟩
      simp [Compiler.left, hk]
    · have hin : t₀ ∈ ts := by
        rcases List.mem_cons.1 hmem with rfl | hin
        · exact absurd heof hk
        · exact hin
      rw [heq]
      refine ⟨⟨rfl, ⟨⟨t₀, hin, heof⟩, fun he => absurd he hk⟩, ht, hdrafts, rfl⟩, rfl, rfl, ?_⟩
      simp [Compiler.left, hk]

/-- **The code of a script is laid out.** -/
theorem script_ends (ht : heap.Tidy) {fuel : Nat}
    (hfuel : 2 * (Compiler.start source heap roots).rest.length + 2 < fuel) :
    Ends (script fuel) (Compiler.start source heap roots) fun _ c => c.Sound ∧
      c.enclosing = [] ∧ c.draft.arity = 0 ∧
        ∃ entry flags : Shape, 0 < flags.length ∧ entry.length = c.draft.arity + 1 ∧
          c.Laid { entry } (some flags) := by
  unfold script
  refine Ends.bind (advance_start_ends ht) fun _ c h => ?_
  obtain ⟨hc, hdraft, houter, hleft⟩ := h
  have hbegun : Begun c := by
    refine ⟨⟨by simp [hdraft, Draft.start], fun l hl => ⟨0, ?_, Nat.zero_le _⟩⟩, ?_, ?_⟩
    · rw [hdraft, Draft.start, List.mem_singleton] at hl
      rw [hl]
    · simp [hdraft, Draft.start]
    · rw [hdraft]
      rfl
  refine Ends.mono (Does.loop (I := fun c' => (∃ added, c.Declares c' added) ∧ c'.left ≤ c.left)
    (J := fun c' => (∃ added, c.Declares c' added) ∧ c'.left ≤ c.left)
    (fun c' hI => ?_) (fun c' hJ => ?_) fuel ⟨⟨[], .refl c⟩, le_rfl⟩ hc) fun _ c' h => ?_
  · obtain ⟨⟨added, h⟩, hle⟩ := hI
    refine (accept_does .eof).bind fun b c₁ _ hl₁ h₁ => .pure ?_
    obtain ⟨all, hall, -⟩ := h.trans (h₁.1.declares hl₁)
    split <;> exact ⟨⟨all, hall⟩, hl₁.left.trans hle⟩
  · obtain ⟨⟨added, h⟩, hle⟩ := hJ
    refine ((parsers fuel).decl c' (h.scoped hbegun.toScoped) (by omega)).mono
      fun _ c₁ _ hl₁ h₁ => ?_
    obtain ⟨added', h₁⟩ := h₁
    obtain ⟨all, hall, -⟩ := h.trans h₁
    exact ⟨⟨all, hall⟩, hl₁.left.trans hle⟩
  · obtain ⟨hc', hlater, ⟨added, h⟩, -⟩ := h
    have henclosing := hlater.enclosing
    rw [houter, List.forall₂_nil_left_iff] at henclosing
    exact ⟨hc', henclosing, h.arity.trans (by simp [hdraft, Draft.start]), hbegun.laid h⟩

end Compile

/-! ## The result -/

variable {source : String} {heap heap' : Heap} {roots : Thunk (List Handle)} {h : Handle}

/-- The parser of a whole source. -/
def Compile.parse (fuel : Nat) : Compile Draft := do
  Compile.script fuel
  Compile.endFunction

instance (fuel : Nat) : Compile.Orderly (Compile.parse fuel) := by
  unfold Compile.parse
  infer_instance

theorem Compile.parse_allots (fuel : Nat) (c : Compiler) :
    c.heap.Allots c.roots.get (Compile.parse fuel c).2.heap :=
  (Orderly.precedes (x := Compile.parse fuel) c).allots

theorem compile_eq (source : String) (heap : Heap) (roots : Thunk (List Handle)) :
    compile source heap roots =
      let start := Compiler.start source heap roots
      let (d, c) := Compile.parse (Compiler.fuel start.rest.length) start
      if c.errors.isEmpty then
        let (h, heap) := c.heap.alloc roots (.function d.function)
        (.ok h, heap)
      else (.error c.errors, c.heap) := rfl

/-- The heap changes only by interning strings and making functions, also if there are errors. -/
theorem compile_allots (source : String) (heap : Heap) (roots : Thunk (List Handle)) :
    heap.Allots roots.get (compile source heap roots).2 := by
  have hparse := Compile.parse_allots (Compiler.fuel (Compiler.start source heap roots).rest.length)
    (Compiler.start source heap roots)
  change heap.Allots roots.get _ at hparse
  rw [compile_eq]
  dsimp only
  generalize Compile.parse _ _ = parsed at hparse ⊢
  obtain ⟨d, c⟩ := parsed
  dsimp only
  split
  · exact .function _ hparse (List.Subset.refl _)
  · exact hparse

/-- Compiling keeps what can be reached from its roots. -/
theorem Heap.Allots.keeps {heap heap' : Heap} {roots : List Handle} (ht : heap.Tidy)
    (h : heap.Allots roots heap') : heap'.Tidy ∧ heap.Keeps roots heap' := by
  induction h with
  | refl => exact ⟨ht, .refl _ _⟩
  | intern s _ hsub ih =>
    exact ⟨tidy_intern ih.1 _ s, ih.2.trans ((keeps_intern ih.1 _ s).mono fun r hr => hsub hr)⟩
  | @function mid rs f _ hsub ih =>
    have ha := alloc_allocates ih.1 rs (.function f)
    exact ⟨ha.tidy, ih.2.trans (ha.keeps.mono fun r hr => List.mem_append_right _ (hsub hr))⟩
  | record e _ ih => exact ⟨ih.1.record e, fun x hx => (cell?_record _ e x).trans (ih.2 x hx)⟩

/-- The function that `compile` makes is that of a finished draft, which captures nothing. -/
theorem compile_ok (ht : heap.Tidy) (hok : compile source heap roots = (.ok h, heap')) :
    ∃ heap₁ d, heap₁.Tidy ∧ Compile.Finished heap₁ d ∧ d.arity = 0 ∧ d.captures = #[] ∧
      heap₁.alloc roots (.function d.function) = (h, heap') := by
  have hends : Compile.Ends
      (Compile.parse (Compiler.fuel (Compiler.start source heap roots).rest.length))
      (Compiler.start source heap roots) fun d c => c.Sound ∧ Compile.Finished c.heap d ∧
        d.arity = 0 ∧ d.captures = #[] := by
    refine .bind (Compile.script_ends ht (by rw [Compiler.fuel]; omega)) fun _ c hc => ?_
    obtain ⟨hc, houter, harity, entry, flags, hflags, hentry, hlaid⟩ := hc
    exact (Compile.endFunction_ends hc hflags hentry hlaid).mono fun d c' hf =>
      ⟨hf.sound, hf.finished, hf.arity.trans harity, hf.outermost houter⟩
  rw [compile_eq] at hok
  unfold Compile.Ends at hends
  dsimp only at hok
  generalize Compile.parse _ _ = parsed at hends hok
  obtain ⟨d, c⟩ := parsed
  dsimp only at hok
  split at hok
  · rename_i hempty
    obtain ⟨hc, hd, harity, hcaptures⟩ := hends (Array.isEmpty_iff.1 hempty)
    simp only [Prod.mk.injEq, Except.ok.injEq] at hok
    exact ⟨c.heap, d, hc.tidy, hd, harity, hcaptures, Prod.ext hok.1 hok.2⟩
  · simp at hok

/-- **What `compile` answers is a compiled function.** -/
theorem compile_compiled (ht : heap.Tidy) (hok : compile source heap roots = (.ok h, heap')) :
    heap'.Compiled h := by
  obtain ⟨heap₁, d, htidy, hd, -, -, halloc⟩ := compile_ok ht hok
  have hcompiled := Compile.compiled_alloc htidy hd roots
  rw [halloc] at hcompiled
  exact hcompiled

/-- The script has no parameters and captures nothing. -/
theorem compile_script (ht : heap.Tidy) (hok : compile source heap roots = (.ok h, heap')) :
    ∃ f bytes, heap'.cell? h = some ⟨.function f, bytes⟩ ∧ f.arity = 0 ∧ f.upvalueCount = 0 := by
  obtain ⟨heap₁, d, htidy, hd, harity, hcaptures, halloc⟩ := compile_ok ht hok
  have hnew := (Heap.alloc_allocates htidy roots (.function d.function)).new
  have hcount := hd.sound.counted
  rw [hcaptures] at hcount
  rw [halloc] at hnew
  exact ⟨_, _, hnew, harity, hcount⟩

/-- **Every function in the tree of constants of a compiled source passes the verifier.** -/
theorem compile_verified (ht : heap.Tidy) (hok : compile source heap roots = (.ok h, heap'))
    {x : Handle} (hx : heap'.Nested h x) :
    ∃ f, heap'.function x = .ok f ∧ f.Verified heap' :=
  (compile_compiled ht hok).verified hx

/-- A script with a function in it. -/
theorem compile_verified_script : ∃ h heap' f,
    compile "fun f(a) { return a; } print f(nil);" {} (Thunk.pure []) = (.ok h, heap') ∧
      heap'.function h = .ok f ∧ f.Verified heap' := by
  have hresult : (compile "fun f(a) { return a; } print f(nil);" {} (Thunk.pure [])).1.toOption =
      some ⟨2, 0⟩ := by decide +kernel
  rcases hcompile : compile "fun f(a) { return a; } print f(nil);" {} (Thunk.pure [])
    with ⟨result, heap'⟩
  rw [hcompile] at hresult
  cases result with
  | error e => cases hresult
  | ok h =>
    obtain ⟨f, hf, hverified⟩ := compile_verified (Heap.tidy_of_empty rfl) hcompile .self
    exact ⟨h, heap', f, rfl, hf, hverified⟩

end LoxMachine
