import LoxMachine.Proofs.Grammar.Legality
import LoxMachine.Proofs.Machine.Lockstep
import LoxMachine.Proofs.Meaning.Acting
import LoxMachine.Proofs.Meaning.Control
import LoxMachine.Proofs.Symbolic.Declarations
import LoxMachine.Proofs.Twin.Sessions

/-!
# Compilation preserves meaning

A program without functions and classes that compiles is executed as the reference says.

* `Machine.load_shown`: the machine starts in the state on data in which evaluation starts.
* `Machine.evaluation_preserved`: interpretation comes to an end if and only if evaluation does, with the same
  result and the same output.
-/

namespace LoxMachine

open Symbolic

/-- The result of a program that has come to an end: nothing, or the error that has ended it. -/
def Report.result? : Report → Option (Option RuntimeError)
  | .finished => some none
  | .aborted e _ => some (some e)
  | _ => none

namespace Machine

variable {m m' : Machine} {source : String} {h : Handle} {heap : Heap}

/-! ## The start -/

/-- A fresh machine has printed nothing. -/
theorem sink_create (heap : Heap) (sink : Sink) (clock : Nat → Number) : (create heap sink clock).sink = sink := by
  unfold create
  generalize heap.intern (Thunk.pure []) "init" = interned
  rfl

/-- **A script is started** in the state in which evaluation starts. -/
theorem load_shown (config : GcConfig) (keeps : Option Level) (clock : Nat → Number)
    {program : List Declaration} (hp : Parses source program)
    (hcompile : compile source (create { config, journal := { keeps } } {} clock).heap
      (.mk fun _ => (create { config, journal := { keeps } } {} clock).roots) = (.ok h, heap)) :
    ∃ c g m, (create { config, journal := { keeps } } {} clock).load source = (none, m) ∧
      (Plain.start.desk 0 []).Shown c (script program) g m := by
  obtain ⟨hs, name, c, bytes, hname, hclock, hglobals⟩ := create_spec config keeps {} clock
  obtain ⟨live, hidle⟩ := idle_create config { keeps } {} clock
  have hsink := sink_create { config, journal := { keeps } } {} clock
  generalize create { config, journal := { keeps } } {} clock = m₀ at *
  obtain ⟨f, charged, hcell, -, harity, -, hspells⟩ := (hp.spells hs.heap.tidy hcompile).cell
  obtain ⟨hhealthy, hkeeps, hkind⟩ := hs.heap.compile source (.mk fun _ => m₀.roots)
  rw [hcompile] at hhealthy hkeeps hkind
  have hs₁ : { m₀ with heap }.Sane := hs.heap_to hhealthy (Heap.steady_of_cells hkeeps)
  obtain ⟨closure, heap', ha, -, henter⟩ := enter_eq (m := { m₀ with heap }) hhealthy.tidy hidle.stack_eq
    hidle.frames_eq hcell harity
  have hs₂ := (enter_tame hs₁ (hkind h rfl)).of_ok henter
  have hself := Heap.Reachable.root (List.mem_append_left
    (handles #[.obj h] m₀.frames m₀.openUpvalues m₀.globals m₀.initName) (List.mem_singleton_self h))
    (Heap.contains_of_cell? hcell)
  -- a global variable and its value are the same as in the fresh machine
  have hglobal : ∀ x ∈ m₀.globals.handles, heap'.cell? x = m₀.heap.cell? x := by
    intro x hx
    have hroot : x ∈ m₀.roots := mem_roots.2 (.inr (.inr (.inr (.inl hx))))
    have hlive : heap.contains x = true := hs₁.roots (x := x) hroot
    refine (ha.kept (.root (List.mem_append_right _ ?_) hlive)).2.trans (hkeeps x (hs.reachable_root hroot))
    exact List.mem_append_left _ (List.mem_append_right _ hx)
  obtain ⟨hkey, hvalue⟩ := hs.mem_globals (c := name) (v := .obj c) (by rw [hglobals, Function.update_self])
  have hname' : heap'.hasContents "clock" name = true := by rwa [Heap.hasContents_congr (hglobal name hkey)]
  have hclock' := (hglobal c (hvalue c rfl)).trans hclock
  refine ⟨c, f, _, load_started hcompile henter, hs₂, ⟨_, rfl, rfl, rfl, ?_⟩, ?_, ⟨_, [], rfl, .nil⟩,
    fun x other _ hother => ?_, hsink, hidle.open_eq⟩
  · exact Heap.function_eq_ok_iff.2 ⟨charged, (ha.kept hself).2.trans hcell⟩
  · exact hspells.mono ⟨List.prefix_rfl, List.prefix_rfl, rfl, fun y hy =>
      (ha.kept (reachable_of_constants hself hcell hy)).2⟩
  · change Option.Rel (heap'.Denotes c) (m₀.globals.toMap x) (Plain.extend (fun _ => none) "clock" .clock other)
    rw [hglobals, Function.update_apply, Plain.extend]
    by_cases hx : x = name
    · subst hx
      rw [if_pos rfl, if_pos (Heap.hasContents_inj hother hname')]
      exact .some (.clock hclock')
    · have hne : other ≠ "clock" := fun heq =>
        hx (hs₂.heap.interned.unique _ _ _ hother (heq.symm ▸ hname'))
      rw [if_neg hx, if_neg hne]
      exact .none

/-! ## Executions that come to an end -/

/-- An execution that has come to an end stays there. -/
theorem run_stays {n : Nat} (h : ∀ m', m.run n ≠ .running m') (more : Nat) : m.run (n + more) = m.run n := by
  induction n generalizing m with
  | zero => exact absurd rfl (h m)
  | succ n ih =>
    rw [Nat.add_right_comm]
    unfold run at h ⊢
    cases hstep : m.step with
    | error why m' => rfl
    | ok done m' =>
      rw [hstep] at h
      cases done with
      | true => rfl
      | false => exact ih h

/-- After enough steps the execution has the outcome. -/
def Settles (m : Machine) (o : Outcome) : Prop := ∃ n, ∀ more, m.run (n + more) = o

theorem Settles.run_eq {o : Outcome} (h : m.Settles o) {n : Nat} (hn : ∀ m', m.run n ≠ .running m') : m.run n = o := by
  obtain ⟨k, hk⟩ := h
  rw [← run_stays hn k, Nat.add_comm]
  exact hk n

/-- The steps before some step. -/
theorem run_running_of_le {n k : Nat} (h : m.run k = .running m') (hle : n ≤ k) : ∃ m'', m.run n = .running m'' := by
  by_contra hnot
  have hstays := run_stays (fun m'' hm => hnot ⟨m'', hm⟩) (k - n)
  rw [Nat.add_sub_cancel' hle, h] at hstays
  exact hnot ⟨m', hstays.symm⟩

/-! ## Executions and evaluations -/

variable {c : Handle} {g : Function} {program : List Plain.Declaration}

/-- **An execution comes to what an evaluation comes to.** If the evaluation runs out of fuel, the execution goes on
for at least as many steps. -/
theorem run_evaluates (hlegal : Declaration.ListLegal (Plain.Declaration.trees program) .start)
    (h : (Plain.start.desk 0 []).Shown c (script (Plain.Declaration.trees program)) g m)
    (hroom : ∀ fuel m', m.run fuel ≠ .failed (.error .stackOverflow) m') (n : Nat) :
    match Plain.evaluate n program with
    | some (none, lines) => ∃ m', m.Settles (.finished m') ∧ m'.sink = { written := printed lines }
    | some (some e, lines) => ∃ m', m.Settles (.failed (.error e) m') ∧ m'.sink = { written := printed lines }
    | none => ∃ m', m.run n = .running m' := by
  have hblock : false = true ↔ Setting.start.here.depth ≠ 0 := by simp [Setting.start]
  obtain ⟨added, -, hperforms⟩ := Plain.Declaration.list_performs n program (r := .none) (o := 0)
    (⟨rfl, rfl⟩ : Setting.start.Shows []) hblock hlegal (Lies.self _).left
  have hend : Lies (script (Plain.Declaration.trees program))
      (0 + extent (Declaration.listCode (Plain.Declaration.trees program) .start .none)) [.op .pushNil, .op .ret] :=
    (Lies.self (script (Plain.Declaration.trees program))).right
  have hcomes := hperforms Plain.start rfl
  unfold Plain.evaluate
  rcases hexec : Plain.Declaration.execList n false program Plain.start with ⟨_, σ⟩ | ⟨e | _, σ⟩ <;> rw [hexec] at hcomes
  · obtain ⟨-, k, hmoves⟩ := hcomes
    obtain ⟨m₁, hshown, hrun⟩ := h.runs (hmoves.trans (.single hend.head (.literal rfl))) hroom
    obtain ⟨m', hstep, hsink⟩ := hshown.ret hend.tail.head rfl
    refine ⟨m', ⟨k + 1 + 1, fun more => ?_⟩, ?_⟩
    · rw [Nat.add_assoc (k + 1), hrun, Nat.add_comm, run, hstep]
    · rw [hsink, hshown.output]
      rfl
  · obtain ⟨k, d, hmoves, hfails, houtput⟩ := hcomes
    obtain ⟨m₁, hshown, hrun⟩ := h.runs hmoves hroom
    obtain ⟨m', hstep, hsink⟩ := hshown.fails hfails
    refine ⟨m', ⟨k + 1, fun more => ?_⟩, ?_⟩
    · rw [Nat.add_assoc, hrun, Nat.add_comm, run, hstep]
    · rw [hsink, hshown.output, houtput]
  · obtain ⟨k, d, hle, hmoves⟩ := hcomes
    obtain ⟨m₁, -, hrun⟩ := h.runs hmoves hroom
    exact run_running_of_le (hrun 0) hle

/-! ## Interpretations -/

theorem resume_failed {n : Nat} {e : RuntimeError} (hs : m.Sane) (hrun : m.run n = .failed (.error e) m') :
    ∃ trace, m.resume n = (.aborted e trace, m'.reset) := by
  have hs' := (run_sane hs n).1
  rw [hrun] at hs'
  obtain ⟨trace, htrace⟩ := Sane.trace_ok (m := m') hs'
  refine ⟨trace, ?_⟩
  unfold resume
  rw [hrun]
  simp only [abort, htrace]

/-- An execution that an interpretation does not leave unfinished has come to an end. -/
theorem run_of_resume {n : Nat} (h : (m.resume n).1 ≠ .unfinished) : ∀ m', m.run n ≠ .running m' := by
  intro m' hrun
  unfold resume at h
  rw [hrun] at h
  exact h rfl

/-- **An interpretation comes to what an evaluation comes to.** -/
theorem resume_evaluates (hlegal : Declaration.ListLegal (Plain.Declaration.trees program) .start)
    (h : (Plain.start.desk 0 []).Shown c (script (Plain.Declaration.trees program)) g m)
    (hroom : ∀ fuel trace, (m.resume fuel).1 ≠ .aborted .stackOverflow trace) (n : Nat) :
    match Plain.evaluate n program with
    | some (result, lines) => (∃ fuel, (m.resume fuel).1 ≠ .unfinished) ∧ ∀ fuel, (m.resume fuel).1 ≠ .unfinished →
      (m.resume fuel).1.result? = some result ∧ (m.resume fuel).2.sink.written = printed lines
    | none => (m.resume n).1 = .unfinished := by
  have hruns := run_evaluates hlegal h (fun fuel m' hrun => by
    obtain ⟨trace, haborted⟩ := resume_failed h.sane hrun
    exact hroom fuel trace (congrArg Prod.fst haborted)) n
  rcases hevaluate : Plain.evaluate n program with _ | ⟨_ | e, lines⟩ <;> rw [hevaluate] at hruns
  · obtain ⟨m', hrun⟩ := hruns
    unfold resume
    rw [hrun]
  · obtain ⟨m', hsettles, hsink⟩ := hruns
    have hresume : ∀ fuel, m.run fuel = .finished m' → m.resume fuel = (.finished, m') := fun fuel hrun => by
      unfold resume
      rw [hrun]
    refine ⟨?_, fun fuel hended => ?_⟩
    · obtain ⟨k, hk⟩ := hsettles
      exact ⟨k, by rw [hresume k (hk 0)]; nofun⟩
    · rw [hresume fuel (hsettles.run_eq (run_of_resume hended)), hsink]
      exact ⟨rfl, rfl⟩
  · obtain ⟨m', hsettles, hsink⟩ := hruns
    refine ⟨?_, fun fuel hended => ?_⟩
    · obtain ⟨k, hk⟩ := hsettles
      obtain ⟨trace, haborted⟩ := resume_failed h.sane (hk 0)
      exact ⟨k + 0, by rw [haborted]; nofun⟩
    · obtain ⟨trace, haborted⟩ := resume_failed h.sane (hsettles.run_eq (run_of_resume hended))
      rw [haborted]
      exact ⟨rfl, congrArg Sink.written hsink⟩

/-- More steps do not change what an interpretation has come to. -/
theorem interpret_eq {n k : Nat} (hn : (m.interpret source n).1 ≠ .unfinished)
    (hk : (m.interpret source k).1 ≠ .unfinished) : m.interpret source n = m.interpret source k := by
  unfold interpret at hn hk ⊢
  generalize m.load source = loaded at hn hk ⊢
  obtain ⟨_ | report, m'⟩ := loaded
  · have hstay := run_stays (run_of_resume hn) k
    rw [Nat.add_comm, run_stays (run_of_resume hk) n] at hstay
    dsimp only [resume]
    rw [hstay]
  · rfl

end Machine

open Machine in
/-- **Compilation preserves meaning.** A source without functions and classes that compiles, and that does not make
the stack overflow, is interpreted to the end by a fresh machine if and only if the reference evaluates it to the
end. Then it has the same result, which is success or a runtime error, and has printed the same lines. -/
theorem evaluation_preserved (config : GcConfig) (keeps : Option Level) (clock : Nat → Number) {source : String}
    {program : List Plain.Declaration} (hp : Parses source (Plain.Declaration.trees program)) {h : Handle}
    {heap : Heap} (hcompile : compile source (create { config, journal := { keeps } } {} clock).heap
      (.mk fun _ => (create { config, journal := { keeps } } {} clock).roots) = (.ok h, heap))
    (hroom : ∀ fuel trace, ((create { config, journal := { keeps } } {} clock).interpret source fuel).1 ≠
      .aborted .stackOverflow trace) :
    ((∃ fuel, ((create { config, journal := { keeps } } {} clock).interpret source fuel).1 ≠ .unfinished) ↔
      ∃ n, Plain.evaluate n program ≠ none) ∧
    ∀ n result lines fuel, Plain.evaluate n program = some (result, lines) →
      ((create { config, journal := { keeps } } {} clock).interpret source fuel).1 ≠ .unfinished →
      ((create { config, journal := { keeps } } {} clock).interpret source fuel).1.result? = some result ∧
        ((create { config, journal := { keeps } } {} clock).interpret source fuel).2.sink.written =
          printed lines := by
  obtain ⟨c, g, m, hload, hshown⟩ := load_shown config keeps clock hp hcompile
  have hlegal : Legal (Plain.Declaration.trees program) :=
    (hp.runProgram_errors_iff _ _).1 (hp.compile_eq_ok_iff.1 hcompile).1
  have hinterpret : ∀ fuel, (create { config, journal := { keeps } } {} clock).interpret source fuel =
      m.resume fuel := by
    intro fuel
    unfold interpret
    rw [hload]
  simp only [hinterpret] at hroom ⊢
  have hresume := resume_evaluates hlegal.1 hshown hroom
  refine ⟨⟨fun ⟨fuel, hended⟩ => ⟨fuel, fun hnone => ?_⟩, fun ⟨n, hsome⟩ => ?_⟩, fun n result lines fuel hevaluate hended => ?_⟩
  · have hunfinished := hresume fuel
    rw [hnone] at hunfinished
    exact hended hunfinished
  · obtain ⟨⟨result, lines⟩, hevaluate⟩ := Option.ne_none_iff_exists'.1 hsome
    have hends := hresume n
    rw [hevaluate] at hends
    exact hends.1
  · have hends := hresume n
    rw [hevaluate] at hends
    exact hends.2 fuel hended

/-- A loop that makes a string longer. -/
theorem evaluation_preserved_joining :
    ∃ source program, source = "var s = \"a\"; while (!(s == \"ab\")) \x7b var t = s + \"b\"; s = t; \x7d print s;" ∧
      Plain.evaluate 2 program = some (none, ["ab"]) ∧ ∀ fuel,
        ((Machine.create { config := {}, journal := { keeps := none } } {} fun _ => ⟨0⟩).interpret source fuel).1 ≠
          .unfinished →
        ((Machine.create { config := {}, journal := { keeps := none } } {} fun _ => ⟨0⟩).interpret source
          fuel).2.sink.written = printed ["ab"] := by
  let s : Name := ⟨"s", by decide⟩
  let t : Name := ⟨"t", by decide⟩
  let program : List Plain.Declaration :=
    [.var s (some (.string "\"a\"")),
     .statement (.whileLoop (.unary .not (.grouping (.binary .equal (.read s) (.string "\"ab\""))))
       (.block [.var t (some (.binary .add (.read s) (.string "\"b\""))),
         .statement (.expression (.assign s (.read t)))])),
     .statement (.print (.read s))]
  refine ⟨_, program, rfl, by decide, fun fuel hended => ?_⟩
  generalize hsource : "var s = \"a\"; while (!(s == \"ab\")) \x7b var t = s + \"b\"; s = t; \x7d print s;" = source
    at hended ⊢
  have hp : Parses source (Plain.Declaration.trees program) := by
    subst hsource
    refine ⟨?_, by decide +kernel, ?_⟩
    · have hall : ∀ t ∈ (Source.ofString
          "var s = \"a\"; while (!(s == \"ab\")) \x7b var t = s + \"b\"; s = t; \x7d print s;").tokens,
          t.kind ∈ [.kwVar, .identifier, .equal, .string, .semicolon, .kwWhile, .leftParen, .bang, .equalEqual,
            .rightParen, .leftBrace, .plus, .rightBrace, .kwPrint, .eof] := by decide +kernel
      intro t ht reason hkind
      have hgood := hall t ht
      rw [hkind] at hgood
      simp at hgood
    · exact ⟨trivial, ⟨⟨by decide, by decide, trivial, by decide, trivial⟩,
        ⟨by decide, trivial, by decide, trivial⟩, trivial, trivial⟩, trivial, trivial⟩
  have hresult : ((Machine.create { config := {}, journal := { keeps := none } } {} fun _ => ⟨0⟩).interpret source
      60).1.result? = some none := by
    subst hsource
    decide +kernel
  have hroom : ∀ fuel trace, ((Machine.create { config := {}, journal := { keeps := none } } {} fun _ => ⟨0⟩).interpret
      source fuel).1 ≠ .aborted .stackOverflow trace := by
    intro fuel trace haborted
    have hsame := Machine.interpret_eq (n := fuel) (k := 60) (by rw [haborted]; nofun)
      (fun hunfinished => by rw [hunfinished] at hresult; cases hresult)
    rw [← hsame, haborted] at hresult
    cases hresult
  have hcompiles : (compile source (Machine.create { config := {}, journal := { keeps := none } } {} fun _ => ⟨0⟩).heap
      (.mk fun _ => (Machine.create { config := {}, journal := { keeps := none } } {}
        fun _ => ⟨0⟩).roots)).1.toOption.isSome = true := by
    subst hsource
    decide +kernel
  rcases hcompile : compile source (Machine.create { config := {}, journal := { keeps := none } } {} fun _ => ⟨0⟩).heap
    (.mk fun _ => (Machine.create { config := {}, journal := { keeps := none } } {} fun _ => ⟨0⟩).roots)
    with ⟨_ | h, heap⟩
  · rw [hcompile] at hcompiles
    cases hcompiles
  · exact ((evaluation_preserved {} none (fun _ => ⟨0⟩) hp hcompile hroom).2 2 none ["ab"] fuel (by decide) hended).2

end LoxMachine
