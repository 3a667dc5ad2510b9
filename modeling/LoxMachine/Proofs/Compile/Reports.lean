import Mathlib.Data.List.Chain
import LoxMachine.Proofs.Compile.Levels
import LoxMachine.Proofs.Compile.Verified
import LoxMachine.Proofs.Grammar.Scanning
import LoxMachine.Proofs.Scan.Partition

/-!
# Errors are reported in the order of the source

A compilation is observed: where in the source the current token stands and the one before, where errors are
reported, and when the compiler recovers.

* `Observed` is a compilation with these positions. `Observed.Runs tokens x o o'`: while the action `x` runs,
  the observation goes from `o` to `o'`.
* `Observed.Stands`: the reports are in order, none comes after the current token, and after a report there is
  no other one before the compiler has recovered. `Observed.Fresh`: unless in panic, none comes after the
  token before, either.
* `Compile.Leads P Q x`: from an observation with `P` the action `x` leads to one with `Q`. All rules of the
  parser lead from fresh observations to fresh ones, except that a declaration may end right after a recovery.
  What comes next takes a token before it reports anything at the token before.
* `reports_in_order`: the errors of a source are reported in its order.
-/

namespace LoxMachine

/-- What happens in a compilation that finds errors. -/
inductive Incident where
  /-- An error is reported at the token with a position in the source. -/
  | error (position : Nat) (d : Diagnosis)
  /-- `synchronize` is called. -/
  | recovery
  deriving DecidableEq

namespace Incident

def report? : Incident → Option (Nat × Diagnosis)
  | error position d => some (position, d)
  | recovery => none

/-- Not both are errors. -/
def Apart (i j : Incident) : Prop := i = recovery ∨ j = recovery

end Incident

/-- A compilation that is observed. The positions mean nothing before the first token is read. -/
structure Observed where
  compiler : Compiler
  /-- The position of the token read last. -/
  previous : Nat := 0
  /-- The position of the current token. -/
  current : Nat := 0
  /-- What has happened so far. -/
  incidents : List Incident := []

/-- Nothing is read and nothing reported. -/
structure Compiler.Quiet (c c' : Compiler) : Prop where
  rest : c'.rest = c.rest
  current : c'.current = c.current
  previous : c'.previous = c.previous
  panicking : c'.panicking = c.panicking
  errors : c'.errors = c.errors

namespace Observed

/-- The errors that have been reported, and their positions. -/
def reports (o : Observed) : List (Nat × Diagnosis) := o.incidents.filterMap Incident.report?

/-- An error is found at a token with a position. In panic it is not reported. -/
def errorAt (o : Observed) (position : Nat) (t : Token) (d : Diagnosis) : Observed :=
  if o.compiler.panicking then o
  else { o with
    compiler := o.compiler.errorAt t d
    incidents := o.incidents ++ [.error position d] }

/-- Panic ends. -/
def recover (o : Observed) : Observed := { o with
  compiler := { o.compiler with panicking := false }
  incidents := o.incidents ++ [.recovery] }

variable (tokens : List Token)

/-- The next token becomes the current one, and the pieces on the way that are no tokens are errors. The list
is what is left of the tokens. -/
inductive Pulls : List Token → Observed → Observed → Prop
  | skip {t : Token} {ts : List Token} {reason : ScanError} {o o' : Observed} (kind : t.kind = .error reason)
    (more : Pulls ts (o.errorAt (tokens.length - (ts.length + 1)) t (.scan reason)) o') : Pulls (t :: ts) o o'
  | take {t : Token} {ts : List Token} (o : Observed) (kind : ∀ reason, t.kind ≠ .error reason) :
    Pulls (t :: ts) o { o with
      compiler := { o.compiler with current := t, rest := if t.kind = .eof then [t] else ts }
      current := tokens.length - (ts.length + 1) }

/-- Running an action of a compilation of some tokens. Only `synchronize` leaves panic. -/
inductive Runs : {α : Type} → Compile α → Observed → Observed → Prop
  | error (o : Observed) (d : Diagnosis) :
    Runs (Compile.error d) o (o.errorAt o.previous o.compiler.previous d)
  | errorAtCurrent (o : Observed) (d : Diagnosis) :
    Runs (Compile.errorAtCurrent d) o (o.errorAt o.current o.compiler.current d)
  | advance {o o' : Observed} (pulls : Pulls tokens o.compiler.rest { o with
      compiler := { o.compiler with previous := o.compiler.current }, previous := o.current } o') :
    Runs Compile.advance o o'
  | synchronize {o o' : Observed} (fuel : Nat) (skips : Runs (Compile.loop (do
        let c ← get
        return c.current.kind != .eof && c.previous.kind != .semicolon
          && !Compile.startsStatement c.current.kind) Compile.advance fuel) o.recover o') :
    Runs (Compile.synchronize fuel) o o'
  | bind {α β : Type} {x : Compile α} {f : α → Compile β} {o o' o'' : Observed} (first : Runs x o o')
    (second : Runs (f (x o.compiler).1) o' o'') : Runs (x >>= f) o o''
  /-- Code, variables and the heap may change. -/
  | work {α : Type} (x : Compile α) (o : Observed) (quiet : o.compiler.Quiet (x o.compiler).2) :
    Runs x o { o with compiler := (x o.compiler).2 }

variable {tokens} {α β : Type} {o o' : Observed}

theorem compiler_errorAt (o : Observed) (position : Nat) (t : Token) (d : Diagnosis) :
    (o.errorAt position t d).compiler = o.compiler.errorAt t d := by
  unfold errorAt Compiler.errorAt
  split <;> rfl

theorem Pulls.compiler_eq {ts : List Token} (h : Pulls tokens ts o o') : o'.compiler = o.compiler.pull ts := by
  induction h with
  | skip hkind _ ih =>
    rw [ih, compiler_errorAt, Compiler.pull, hkind]
  | @take t ts o hkind =>
    by_cases heof : t.kind = .eof
    · simp [Compiler.pull, heof]
    · simp only [if_neg heof]
      unfold Compiler.pull
      split
      · exact absurd ‹_› (hkind _)
      · exact absurd ‹_› heof
      · rfl

/-- What is observed is what the action does. -/
theorem Runs.compiler_eq {x : Compile α} (h : Runs tokens x o o') : o'.compiler = (x o.compiler).2 := by
  induction h with
  | error o d => exact compiler_errorAt ..
  | errorAtCurrent o d => exact compiler_errorAt ..
  | advance hpulls => exact hpulls.compiler_eq
  | synchronize fuel _ ih => exact ih
  | bind _ _ ih ih' =>
    rw [ih', ih]
    rfl
  | work => rfl

/-! ## What has been reported -/

variable (tokens) in
/-- The error that is shown for a report. -/
def Shows (report : Nat × Diagnosis) (e : CompileError) : Prop :=
  ∃ t, tokens[report.1]? = some t ∧ e = .ofToken t report.2

variable (tokens) in
/-- The errors that have been found are those that have been reported, in this order, up to a position. -/
structure Reported (upto : Nat) (o : Observed) : Prop where
  errors : List.Forall₂ (Shows tokens) o.reports o.compiler.errors.toList
  sorted : (o.reports.map Prod.fst).Pairwise (· ≤ ·)
  bounded : ∀ r ∈ o.reports, r.1 ≤ upto
  apart : o.incidents.IsChain Incident.Apart
  /-- The last thing that happened was a recovery, unless in panic. -/
  calm : o.compiler.panicking = false → ∀ i ∈ o.incidents.getLast?, i = .recovery

variable {n m : Nat}

theorem Reported.mono (h : o.Reported tokens n) (hle : n ≤ m) : o.Reported tokens m :=
  ⟨h.errors, h.sorted, fun r hr => (h.bounded r hr).trans hle, h.apart, h.calm⟩

/-- What is reported does not depend on the rest of the compilation. -/
theorem Reported.congr (h : o.Reported tokens n) (hincidents : o'.incidents = o.incidents)
    (hpanicking : o'.compiler.panicking = o.compiler.panicking) (herrors : o'.compiler.errors = o.compiler.errors) :
    o'.Reported tokens n := by
  have hreports : o'.reports = o.reports := congrArg (List.filterMap Incident.report?) hincidents
  refine ⟨?_, hreports ▸ h.sorted, hreports ▸ h.bounded, hincidents ▸ h.apart, fun hcalm => ?_⟩
  · rw [hreports, herrors]
    exact h.errors
  · rw [hincidents]
    exact h.calm (hpanicking ▸ hcalm)

theorem panicking_errorAt (position : Nat) (t : Token) (d : Diagnosis) :
    (o.errorAt position t d).compiler.panicking = true := by
  unfold errorAt
  split
  · assumption
  · simp [Compiler.errorAt, *]

/-- An error at a token that is not before the last report. -/
theorem Reported.errorAt (h : o.compiler.panicking = true ∨ o.Reported tokens n) (hle : n ≤ m)
    (hm : o.Reported tokens m) {t : Token} (ht : tokens[n]? = some t) (d : Diagnosis) :
    (o.errorAt n t d).Reported tokens m := by
  unfold Observed.errorAt
  split
  · exact hm
  · rename_i hcalm
    have h := h.resolve_left hcalm
    have hcalm : o.compiler.panicking = false := by simpa using hcalm
    have hreports : reports { o with
        compiler := o.compiler.errorAt t d, incidents := o.incidents ++ [.error n d] } =
        o.reports ++ [(n, d)] := by
      simp [reports, Incident.report?]
    have herrors : (o.compiler.errorAt t d).errors.toList = o.compiler.errors.toList ++ [.ofToken t d] := by
      simp [Compiler.errorAt, hcalm]
    refine ⟨?_, ?_, ?_, ?_, ?_⟩
    · rw [hreports]
      dsimp only
      rw [herrors]
      exact List.rel_append h.errors (.cons ⟨t, ht, rfl⟩ .nil)
    · rw [hreports, List.map_append]
      refine List.pairwise_append.2 ⟨h.sorted, List.pairwise_singleton _ _, fun p hp q hq => ?_⟩
      obtain ⟨r, hr, rfl⟩ := List.mem_map.1 hp
      obtain rfl : q = n := by simpa using hq
      exact h.bounded r hr
    · rw [hreports]
      intro r hr
      rcases List.mem_append.1 hr with hr | hr
      · exact hm.bounded r hr
      · obtain rfl : r = (n, d) := by simpa using hr
        exact hle
    · refine List.isChain_append.2 ⟨h.apart, .singleton _, fun i hi j _ => ?_⟩
      exact .inl (h.calm hcalm i hi)
    · intro hno
      simp [Compiler.errorAt, hcalm] at hno

theorem Reported.recover (h : o.Reported tokens n) : o.recover.Reported tokens n := by
  have hreports : o.recover.reports = o.reports := by simp [Observed.recover, reports, Incident.report?]
  refine ⟨hreports ▸ h.errors, hreports ▸ h.sorted, hreports ▸ h.bounded, ?_, fun _ i hi => ?_⟩
  · refine List.isChain_append.2 ⟨h.apart, .singleton _, fun i _ j hj => ?_⟩
    exact .inr (by simpa using hj.symm)
  · simpa [Observed.recover] using hi.symm

/-! ## Where the compiler stands -/

variable (tokens) in
/-- The reports are in order up to the current token. -/
structure Stands (o : Observed) : Prop where
  current : tokens[o.current]? = some o.compiler.current
  rest : o.compiler.rest = tokens.drop (if o.compiler.current.kind = .eof then o.current else o.current + 1)
  reported : o.Reported tokens o.current

variable (tokens) in
/-- The reports are in order up to the token before the current one, if another one may be made. -/
structure Fresh (o : Observed) : Prop extends o.Stands tokens where
  previous : o.compiler.panicking = true ∨
    tokens[o.previous]? = some o.compiler.previous ∧ o.previous ≤ o.current ∧ o.Reported tokens o.previous

theorem Stands.work (h : o.Stands tokens) {c : Compiler} (hc : o.compiler.Quiet c) :
    Stands tokens { o with compiler := c } where
  current := hc.current ▸ h.current
  rest := by
    dsimp only
    rw [hc.rest, hc.current]
    exact h.rest
  reported := h.reported.congr rfl hc.panicking hc.errors

theorem Fresh.work (h : o.Fresh tokens) {c : Compiler} (hc : o.compiler.Quiet c) :
    Fresh tokens { o with compiler := c } where
  toStands := h.toStands.work hc
  previous := by
    rcases h.previous with hpanic | ⟨hprevious, hle, hreported⟩
    · exact .inl (hc.panicking.trans hpanic)
    · exact .inr ⟨hc.previous ▸ hprevious, hle, hreported.congr rfl hc.panicking hc.errors⟩

theorem Stands.errorAt (h : o.Stands tokens) {t : Token} (hn : o.compiler.panicking = true ∨ o.Reported tokens n)
    (hle : n ≤ o.current) (ht : tokens[n]? = some t) (d : Diagnosis) :
    (o.errorAt n t d).Fresh tokens := by
  have hsame : (o.errorAt n t d).current = o.current ∧ (o.errorAt n t d).compiler.current = o.compiler.current ∧
      (o.errorAt n t d).compiler.rest = o.compiler.rest := by
    unfold Observed.errorAt Compiler.errorAt
    split <;> simp
  refine ⟨⟨?_, ?_, ?_⟩, .inl (panicking_errorAt n t d)⟩
  · rw [hsame.1, hsame.2.1]
    exact h.current
  · rw [hsame.1, hsame.2.1, hsame.2.2]
    exact h.rest
  · rw [hsame.1]
    exact .errorAt hn hle h.reported ht d

/-- **The next token.** What is no token is reported after everything before it. -/
theorem exists_pulls (hend : ∀ k t, tokens[k]? = some t → (t.kind = .eof ↔ k + 1 = tokens.length))
    {ts : List Token} {k : Nat} (hts : ts = tokens.drop k) (hk : k < tokens.length) (hle : n ≤ k)
    (hreported : o.Reported tokens k) (hn : o.compiler.panicking = true ∨ o.Reported tokens n) :
    ∃ o', Pulls tokens ts o o' ∧ o'.Stands tokens ∧ n ≤ o'.current ∧ o'.previous = o.previous ∧
      o'.compiler.previous = o.compiler.previous ∧
      (o'.compiler.panicking = true ∨ o'.Reported tokens n) := by
  induction ts generalizing k o with
  | nil => exact absurd (List.drop_eq_nil_iff.1 hts.symm) (Nat.not_le.2 hk)
  | cons t ts ih =>
    rw [List.drop_eq_getElem_cons hk] at hts
    obtain ⟨ht, hts⟩ := List.cons.inj hts
    have hget : tokens[k]? = some t := by rw [ht, List.getElem?_eq_getElem hk]
    have hposition : tokens.length - (ts.length + 1) = k := by
      rw [hts, List.length_drop]
      omega
    by_cases herror : ∃ reason, t.kind = .error reason
    · obtain ⟨reason, hkind⟩ := herror
      have hlast : k + 1 ≠ tokens.length := fun h => by simp [(hend k t hget).2 h] at hkind
      have hskipped : (o.errorAt k t (.scan reason)).Reported tokens (k + 1) :=
        .errorAt (.inr hreported) (Nat.le_succ k) (hreported.mono (Nat.le_succ k)) hget _
      obtain ⟨o', hpulls, hstands, hcurrent, hprevious, hprevious', hreported'⟩ :=
        ih hts (by omega) (by omega) hskipped (.inl (panicking_errorAt k t _))
      have hsame : (o.errorAt k t (.scan reason)).previous = o.previous ∧
          (o.errorAt k t (.scan reason)).compiler.previous = o.compiler.previous := by
        unfold errorAt Compiler.errorAt
        split <;> simp
      exact ⟨o', .skip hkind (hposition.symm ▸ hpulls), hstands, hcurrent, hprevious.trans hsame.1,
        hprevious'.trans hsame.2, hreported'⟩
    · refine ⟨_, .take o (not_exists.1 herror), ⟨?_, ?_, ?_⟩, hposition.symm ▸ hle, rfl, rfl, ?_⟩
      · exact hposition.symm ▸ hget
      · change (if t.kind = .eof then [t] else ts) = tokens.drop (if t.kind = .eof then _ else _)
        rw [hposition]
        split
        · rename_i heof
          have hlast := (hend k t hget).1 heof
          rw [List.drop_eq_getElem_cons hk, ← ht, List.drop_eq_nil_of_le hlast.ge]
        · exact hts
      · exact (hposition.symm ▸ hreported).congr rfl rfl rfl
      · exact hn.imp id fun h => h.congr rfl rfl rfl

end Observed

/-! ## Actions -/

namespace Compile

open Observed

section Leads

variable {tokens : List Token} {α β : Type} {P P' Q Q' I : Observed → Prop} {x : Compile α} {f : α → Compile β}

variable (tokens) in
/-- From observations with `P` the action leads to observations with `Q`. -/
def Leads (P Q : Observed → Prop) (x : Compile α) : Prop := ∀ o, P o → ∃ o', Runs tokens x o o' ∧ Q o'

theorem Leads.mono (h : Leads tokens P Q x) (hP : ∀ o, P' o → P o) (hQ : ∀ o, Q o → Q' o) :
    Leads tokens P' Q' x := fun o ho =>
  (h o (hP o ho)).imp fun o' h => ⟨h.1, hQ o' h.2⟩

theorem Leads.bind (h : Leads tokens P Q x) (hf : ∀ a, Leads tokens Q Q' (f a)) :
    Leads tokens P Q' (x >>= f) := by
  intro o ho
  obtain ⟨o', hx, ho'⟩ := h o ho
  obtain ⟨o'', hf', ho''⟩ := hf (x o.compiler).1 o' ho'
  exact ⟨o'', .bind hx hf', ho''⟩

theorem Leads.ite {p : Prop} [Decidable p] {x y : Compile α} (hx : Leads tokens P Q x)
    (hy : Leads tokens P Q y) : Leads tokens P Q (if p then x else y) := by
  split
  · exact hx
  · exact hy

theorem Leads.loop {condition : Compile Bool} {body : Compile Unit} (hcondition : Leads tokens I I condition)
    (hbody : Leads tokens I I body) (n : Nat) : Leads tokens I I (loop condition body n) := by
  induction n with
  | zero => exact fun o ho => ⟨_, .work _ o ⟨rfl, rfl, rfl, rfl, rfl⟩, ho⟩
  | succ n ih =>
    unfold Compile.loop
    exact hcondition.bind fun _ => .ite (hbody.bind fun _ => ih)
      fun o ho => ⟨_, .work _ o ⟨rfl, rfl, rfl, rfl, rfl⟩, ho⟩

theorem leads_of_quiet (hx : ∀ c : Compiler, c.Quiet (x c).2) : Leads tokens (Stands tokens) (Stands tokens) x :=
  fun o ho => ⟨_, .work x o (hx _), ho.work (hx _)⟩

end Leads

end Compile

/-! ## The tokens of a source -/

/-- Only the last token is `eof`. -/
theorem Source.eof_iff (s : Source) {k : Nat} {t : Token} (h : s.tokens[k]? = some t) :
    t.kind = .eof ↔ k + 1 = s.tokens.length := by
  obtain ⟨ts, e, heq, he, hts⟩ := s.tokens_eq
  rw [heq] at h ⊢
  rw [List.length_append, List.length_singleton, Nat.add_right_cancel_iff]
  rw [List.getElem?_append] at h
  split at h
  · rename_i hlt
    exact ⟨fun heof => absurd heof (hts t (List.mem_of_getElem? h)).1, fun heq => absurd heq hlt.ne⟩
  · have hk := (List.getElem?_eq_some_iff.1 h).1
    have hk : k = ts.length := by
      simp only [List.length_singleton] at hk
      omega
    subst hk
    obtain rfl : e = t := by simpa using h
    exact ⟨fun _ => rfl, fun _ => he⟩

namespace Compile

open Observed

variable {s : Source} {α β : Type} {x : Compile α} {f : α → Compile β}

/-- Reading a token refreshes the observation. -/
theorem advance_leads : Leads s.tokens (Stands s.tokens) (Fresh s.tokens) advance := by
  intro o ho
  have hlt := (List.getElem?_eq_some_iff.1 ho.current).1
  have hk : (if o.compiler.current.kind = .eof then o.current else o.current + 1) < s.tokens.length := by
    split
    · exact hlt
    · rename_i hne
      have := mt (s.eof_iff ho.current).2 hne
      omega
  have hle : o.current ≤ if o.compiler.current.kind = .eof then o.current else o.current + 1 := by
    split <;> omega
  have hreported : { o with
      compiler := { o.compiler with previous := o.compiler.current }, previous := o.current }.Reported
        s.tokens o.current := ho.reported.congr rfl rfl rfl
  obtain ⟨o', hpulls, hstands, hcurrent, hprevious, hprevious', hreported'⟩ :=
    exists_pulls (fun _ _ => s.eof_iff) ho.rest hk hle (hreported.mono hle) (.inr hreported)
  refine ⟨o', .advance hpulls, hstands, hreported'.imp id fun h => ⟨?_, ?_, ?_⟩⟩
  · rw [hprevious, hprevious']
    exact ho.current
  · exact hprevious ▸ hcurrent
  · exact hprevious ▸ h

theorem errorAtCurrent_leads (d : Diagnosis) :
    Leads s.tokens (Stands s.tokens) (Fresh s.tokens) (errorAtCurrent d) := fun o ho =>
  ⟨_, .errorAtCurrent o d, ho.errorAt (.inr ho.reported) le_rfl ho.current d⟩

theorem error_leads (d : Diagnosis) : Leads s.tokens (Fresh s.tokens) (Fresh s.tokens) (error d) := by
  intro o ho
  refine ⟨_, .error o d, ?_⟩
  rcases ho.previous with hpanic | ⟨hprevious, hle, hreported⟩
  · unfold Observed.errorAt
    rw [if_pos hpanic]
    exact ho
  · exact ho.toStands.errorAt (.inr hreported) hle hprevious d

/-- An action leads from fresh observations to fresh ones. -/
def reporting (s : Source) : Judgement := ⟨fun c x =>
  ∀ o : Observed, o.compiler = c → o.Fresh s.tokens → ∃ o', Runs s.tokens x o o' ∧ o'.Fresh s.tokens⟩

theorem Along.leads (h : Along (reporting s) x) : Leads s.tokens (Fresh s.tokens) (Fresh s.tokens) x :=
  fun o => h.holds o.compiler o rfl

theorem Leads.along (h : Leads s.tokens (Fresh s.tokens) (Fresh s.tokens) x) : Along (reporting s) x :=
  ⟨fun _ o _ => h o⟩

theorem quiet_reportListing (c : Compiler) (d : Draft) : c.Quiet (reportListing d c).2 := by
  change c.Quiet (if _ then _ else _)
  split
  · split <;> exact ⟨rfl, rfl, rfl, rfl, rfl⟩
  · exact ⟨rfl, rfl, rfl, rfl, rfl⟩

theorem quiet_finish (c : Compiler) : c.Quiet (match c.enclosing with
    | [] => { c with draft := .start .script none }
    | d :: enclosing => { c with draft := d, enclosing }) := by
  split <;> exact ⟨rfl, rfl, rfl, rfl, rfl⟩

theorem reporting_of_quiet {c : Compiler} (hx : c.Quiet (x c).2) : (reporting s).holds c x := by
  rintro o rfl ho
  exact ⟨_, .work x o hx, ho.work hx⟩

theorem nameConstant_leads (name : String) :
    Leads s.tokens (Fresh s.tokens) (Fresh s.tokens) (nameConstant name) := by
  have hquiet {γ : Type} {x : Compile γ} (hx : ∀ c : Compiler, c.Quiet (x c).2) :
      Leads s.tokens (Fresh s.tokens) (Fresh s.tokens) x :=
    fun o ho => ⟨_, .work x o (hx _), ho.work (hx _)⟩
  unfold nameConstant makeConstant
  refine (hquiet fun _ => ⟨rfl, rfl, rfl, rfl, rfl⟩).bind fun _ =>
    (hquiet fun _ => ⟨rfl, rfl, rfl, rfl, rfl⟩).bind fun _ =>
    (hquiet fun _ => ⟨rfl, rfl, rfl, rfl, rfl⟩).bind fun _ => .ite ((error_leads _).bind fun _ => ?_) ?_
  · exact hquiet fun _ => ⟨rfl, rfl, rfl, rfl, rfl⟩
  · exact hquiet fun _ => ⟨rfl, rfl, rfl, rfl, rfl⟩

instance : Flow (reporting s) where
  pure _ _ := reporting_of_quiet ⟨rfl, rfl, rfl, rfl, rfl⟩
  get _ := reporting_of_quiet ⟨rfl, rfl, rfl, rfl, rfl⟩
  bind hx hf o ho hfresh := by
    obtain ⟨o', hruns, hfresh'⟩ := hx o ho hfresh
    obtain ⟨o'', hruns', hfresh''⟩ := hf o' (hruns.compiler_eq.trans (ho ▸ rfl)) hfresh'
    exact ⟨o'', .bind hruns (ho ▸ hruns'), hfresh''⟩
  error _ d o _ := error_leads d o
  errorAtCurrent _ d o _ ho := errorAtCurrent_leads d o ho.toStands
  read _ o _ ho := advance_leads o ho.toStands
  intern _ _ := reporting_of_quiet ⟨rfl, rfl, rfl, rfl, rfl⟩
  function _ _ := reporting_of_quiet ⟨rfl, rfl, rfl, rfl, rfl⟩
  report c d := reporting_of_quiet (quiet_reportListing c d)
  write _ _ _ _ := reporting_of_quiet ⟨rfl, rfl, rfl, rfl, rfl⟩
  number _ _ := reporting_of_quiet ⟨rfl, rfl, rfl, rfl, rfl⟩
  string _ s o _ := nameConstant_leads s o
  constant _ _ := reporting_of_quiet ⟨rfl, rfl, rfl, rfl, rfl⟩
  count _ := reporting_of_quiet ⟨rfl, rfl, rfl, rfl, rfl⟩
  declare _ _ _ := reporting_of_quiet ⟨rfl, rfl, rfl, rfl, rfl⟩
  settle _ := reporting_of_quiet ⟨rfl, rfl, rfl, rfl, rfl⟩
  resolve _ _ _ _ := reporting_of_quiet ⟨rfl, rfl, rfl, rfl, rfl⟩
  classes _ _ := reporting_of_quiet ⟨rfl, rfl, rfl, rfl, rfl⟩
  scope _ _ := reporting_of_quiet ⟨rfl, rfl, rfl, rfl, rfl⟩
  forget _ _ := reporting_of_quiet ⟨rfl, rfl, rfl, rfl, rfl⟩
  begin _ _ _ := reporting_of_quiet ⟨rfl, rfl, rfl, rfl, rfl⟩
  finish c := reporting_of_quiet (quiet_finish c)

/-! ## The parser -/

/-- A token that is expected is read, or an error is reported. -/
theorem consume_leads (kind : TokenKind) (e : Expectation) :
    Leads s.tokens (Stands s.tokens) (Fresh s.tokens) (consume kind e) :=
  (leads_of_quiet fun _ => ⟨rfl, rfl, rfl, rfl, rfl⟩).bind fun _ =>
    .ite advance_leads (errorAtCurrent_leads _)

/-- What comes after a token has been read starts from a fresh observation. -/
theorem Leads.accept {kind : TokenKind} {f : Bool → Compile β} {Q : Observed → Prop}
    (hread : Leads s.tokens (Fresh s.tokens) Q (f true)) (hleft : Leads s.tokens (Stands s.tokens) Q (f false)) :
    Leads s.tokens (Stands s.tokens) Q (accept kind >>= f) := by
  intro o ho
  have hcheck : Runs s.tokens (check kind) o o := .work (check kind) o ⟨rfl, rfl, rfl, rfl, rfl⟩
  by_cases hkind : o.compiler.current.kind = kind
  · obtain ⟨o', hadvance, ho'⟩ := advance_leads o ho
    have haccept : Runs s.tokens (Compile.accept kind) o o' := by
      refine .bind hcheck ?_
      rw [show (check kind o.compiler).1 = true from decide_eq_true hkind, if_pos rfl]
      exact .bind hadvance (.work (pure true) o' ⟨rfl, rfl, rfl, rfl, rfl⟩)
    obtain ⟨o'', hf, ho''⟩ := hread o' ho'
    refine ⟨o'', .bind haccept ?_, ho''⟩
    rw [accept_eq_ite, if_pos hkind]
    exact hf
  · have haccept : Runs s.tokens (Compile.accept kind) o o := by
      refine .bind hcheck ?_
      rw [show (check kind o.compiler).1 = false from decide_eq_false hkind, if_neg nofun]
      exact .work (pure false) o ⟨rfl, rfl, rfl, rfl, rfl⟩
    obtain ⟨o', hf, ho'⟩ := hleft o ho
    refine ⟨o', .bind haccept ?_, ho'⟩
    rw [accept_eq_ite, if_neg hkind]
    exact hf

set_option synthInstance.maxSize 16384

/-- Expressions read a token first, unless there are no steps left. -/
theorem expression_leads (n : Nat) : Leads s.tokens (Stands s.tokens) (Stands s.tokens) (expression n) := by
  cases n with
  | zero => exact leads_of_quiet fun _ => ⟨rfl, rfl, rfl, rfl, rfl⟩
  | succ n =>
    unfold expression parsePrecedence
    refine advance_leads.bind fun _ => Leads.mono (Along.leads ?_) (fun _ ho => ho) fun _ ho => ho.toStands
    dsimp only
    infer_instance

section Rules

variable (expr stmt decl : Compile Unit) (fuel : Nat)

/-- The closing brace is read after all recoveries. -/
theorem block_along (hdecl : Leads s.tokens (Stands s.tokens) (Stands s.tokens) decl) :
    Along (reporting s) (block decl fuel) := by
  refine Leads.along (Leads.mono (P := Stands s.tokens) ?_ (fun _ ho => ho.toStands) fun _ ho => ho)
  unfold block
  exact (Leads.loop (leads_of_quiet fun _ => ⟨rfl, rfl, rfl, rfl, rfl⟩) hdecl fuel).bind fun _ =>
    consume_leads _ _

theorem statementRule_leads [Along (reporting s) expr] [Along (reporting s) stmt]
    (hexpr : Leads s.tokens (Stands s.tokens) (Stands s.tokens) expr)
    [Along (reporting s) (block decl fuel)] :
    Leads s.tokens (Stands s.tokens) (Fresh s.tokens) (statementRule expr stmt decl fuel) := by
  have := along_forStatement (J := reporting s) expr stmt
  unfold statementRule
  refine .accept ?_ (.accept ?_ (.accept ?_ (.accept ?_ (.accept ?_ (.accept ?_ ?_)))))
  iterate 6 exact Along.leads inferInstance
  exact hexpr.bind fun _ => (consume_leads _ _).bind fun _ => Along.leads inferInstance

/-- A recovery takes tokens, or none. -/
theorem synchronize_leads : Leads s.tokens (Stands s.tokens) (Stands s.tokens) (synchronize fuel) := by
  intro o ho
  have hrecovered : o.recover.Stands s.tokens := ⟨ho.current, ho.rest, ho.reported.recover⟩
  have hinside : Leads s.tokens (Stands s.tokens) (Stands s.tokens) (do
      let c ← get
      return c.current.kind != .eof && c.previous.kind != .semicolon && !startsStatement c.current.kind) :=
    leads_of_quiet fun _ => ⟨rfl, rfl, rfl, rfl, rfl⟩
  obtain ⟨o', hruns, ho'⟩ := hinside.loop
    (advance_leads.mono (fun _ ho => ho) fun _ ho => ho.toStands) fuel o.recover hrecovered
  exact ⟨o', .synchronize fuel hruns, ho'⟩

theorem declarationRule_leads [Along (reporting s) expr]
    (hstmt : Leads s.tokens (Stands s.tokens) (Stands s.tokens) stmt) [Along (reporting s) (block decl fuel)] :
    Leads s.tokens (Stands s.tokens) (Stands s.tokens) (declarationRule expr stmt decl fuel) := by
  have := along_functionBody (J := reporting s) decl fuel
  have := along_classDeclaration (J := reporting s) decl fuel
  have hstands : ∀ o : Observed, o.Fresh s.tokens → o.Stands s.tokens := fun _ ho => ho.toStands
  have hend : Leads s.tokens (Stands s.tokens) (Stands s.tokens) (do
      if (← get).panicking then synchronize fuel) :=
    (leads_of_quiet fun _ => ⟨rfl, rfl, rfl, rfl, rfl⟩).bind fun _ =>
      .ite (synchronize_leads fuel) (leads_of_quiet fun _ => ⟨rfl, rfl, rfl, rfl, rfl⟩)
  have hrule : ∀ (x : Compile Unit) [Along (reporting s) x],
      Leads s.tokens (Fresh s.tokens) (Stands s.tokens) (do x; if (← get).panicking then synchronize fuel) :=
    fun x hx => hx.leads.bind fun _ => hend.mono hstands fun _ ho => ho
  unfold declarationRule
  exact .accept (hrule _) (.accept (hrule _) (.accept (hrule _) (hstmt.bind fun _ => hend)))

end Rules

theorem statement_declaration_leads (n : Nat) :
    (Leads s.tokens (Stands s.tokens) (Stands s.tokens) (statement n) ∧ Along (reporting s) (statement n)) ∧
      Leads s.tokens (Stands s.tokens) (Stands s.tokens) (declaration n) := by
  induction n with
  | zero =>
    have hquiet : ∀ c : Compiler, c.Quiet c := fun _ => ⟨rfl, rfl, rfl, rfl, rfl⟩
    exact ⟨⟨leads_of_quiet hquiet, inferInstanceAs (Along _ (pure ()))⟩, leads_of_quiet hquiet⟩
  | succ n ih =>
    obtain ⟨⟨hstmt, hstmt'⟩, hdecl⟩ := ih
    have := block_along (declaration n) n hdecl
    have := along_forStatement (J := reporting s) (expression n) (statement n)
    refine ⟨⟨?_, ?_⟩, declarationRule_leads (expression n) (statement n) (declaration n) n hstmt⟩
    · exact (statementRule_leads (expression n) (statement n) (declaration n) n (expression_leads n)).mono
        (fun _ ho => ho) fun _ ho => ho.toStands
    · exact along_statementRule (expression n) (statement n) (declaration n) n

/-- The code that ends a function is written without reading anything. -/
theorem endFunction_leads : Leads s.tokens (Stands s.tokens) (Stands s.tokens) endFunction := by
  have hreturn : Leads s.tokens (Stands s.tokens) (Stands s.tokens) emitReturn :=
    (leads_of_quiet fun _ => ⟨rfl, rfl, rfl, rfl, rfl⟩).bind fun _ => by
      dsimp only
      split <;> exact leads_of_quiet fun _ => ⟨rfl, rfl, rfl, rfl, rfl⟩
  exact hreturn.bind fun _ => (leads_of_quiet fun _ => ⟨rfl, rfl, rfl, rfl, rfl⟩).bind fun _ =>
    (leads_of_quiet quiet_finish).bind fun _ => (leads_of_quiet fun c => quiet_reportListing c _).bind fun _ =>
      leads_of_quiet fun _ => ⟨rfl, rfl, rfl, rfl, rfl⟩

/-- Nothing has been reported before the first token. -/
theorem start_leads (o : Observed) (hrest : o.compiler.rest = s.tokens)
    (herrors : o.compiler.errors = #[]) (hincidents : o.incidents = []) :
    ∃ o', Runs s.tokens advance o o' ∧ o'.Stands s.tokens := by
  obtain ⟨ts, e, htokens, -, -⟩ := s.tokens_eq
  have hreported : Reported s.tokens 0 { o with
      compiler := { o.compiler with previous := o.compiler.current }, previous := o.current } := by
    refine ⟨?_, ?_, ?_, ?_, ?_⟩ <;> simp [reports, hincidents, herrors]
  obtain ⟨o', hpulls, hstands, -⟩ := exists_pulls (fun _ _ => s.eof_iff) (hrest.trans List.drop_zero.symm)
    (by simp [htokens]) le_rfl hreported (.inr hreported)
  exact ⟨o', .advance hpulls, hstands⟩

/-- The whole source is read to its end. -/
theorem parse_leads (source : String) (heap : Heap) (roots : Thunk (List Handle)) (fuel : Nat) :
    ∃ o, Runs (Source.ofString source).tokens (parse fuel) { compiler := Compiler.start source heap roots } o ∧
      o.Stands (Source.ofString source).tokens := by
  obtain ⟨o, hfirst, ho⟩ := start_leads (s := Source.ofString source)
    { compiler := Compiler.start source heap roots } rfl rfl rfl
  have hcondition : Leads (Source.ofString source).tokens (Stands _) (Stands _) (return !(← accept .eof)) :=
    .accept (leads_of_quiet (fun _ => ⟨rfl, rfl, rfl, rfl, rfl⟩) |>.mono (fun _ ho => ho.toStands) fun _ ho => ho)
      (leads_of_quiet fun _ => ⟨rfl, rfl, rfl, rfl, rfl⟩)
  obtain ⟨o', hloop, ho'⟩ := hcondition.loop (statement_declaration_leads fuel).2 fuel o ho
  obtain ⟨o'', hend, ho''⟩ := endFunction_leads o' ho'
  exact ⟨o'', .bind (.bind hfirst hloop) hend, ho''⟩

end Compile

/-! ## Lines -/

/-- The lines of pieces that follow each other, and of the end after them. -/
theorem Piece.lines_sorted (done : List Char) {tail : List Char} {pieces : List Piece}
    (h : ∀ before p after, pieces = before ++ p :: after →
      p.Stands (done ++ before.flatMap Piece.written) (after.flatMap Piece.written ++ tail)) :
    (pieces.map (·.token.line) ++ [1 + (done ++ pieces.flatMap Piece.written ++ tail).count '\n']).Pairwise (· ≤ ·) ∧
      ∀ line ∈ pieces.map (·.token.line) ++ [1 + (done ++ pieces.flatMap Piece.written ++ tail).count '\n'],
        1 + done.count '\n' ≤ line := by
  induction pieces generalizing done with
  | nil => simp
  | cons p pieces ih =>
    have hp := (h [] p pieces rfl).line
    have hline : p.token.line = 1 + (done ++ p.written).count '\n' := by
      rw [hp, Piece.written]
      simp
    obtain ⟨hsorted, hbound⟩ := ih (done ++ p.written) fun before q after heq => by
      have := h (p :: before) q after (by rw [heq]; rfl)
      rwa [List.flatMap_cons, ← List.append_assoc] at this
    rw [← hline] at hbound
    rw [List.map_cons, List.flatMap_cons, List.cons_append, ← List.append_assoc done]
    have hle : 1 + done.count '\n' ≤ p.token.line := by
      rw [hline, List.count_append]
      omega
    exact ⟨List.pairwise_cons.2 ⟨hbound, hsorted⟩,
      List.forall_mem_cons.2 ⟨hle, fun line hmem => hle.trans (hbound line hmem)⟩⟩

/-- The lines of the tokens of a source do not decrease. -/
theorem Source.lines_sorted (source : String) :
    ((Source.ofString source).tokens.map Token.line).Pairwise (· ≤ ·) := by
  obtain ⟨pieces, tail, hcut⟩ := Source.exists_cut (Source.ofString source) [] rfl
  have hsorted := (Piece.lines_sorted [] hcut.stands).1
  rw [hcut.tokens_eq, List.map_append, List.map_map]
  rw [List.nil_append, ← hcut.covers] at hsorted
  exact hsorted

namespace Observed

variable {tokens : List Token}

/-- Errors at tokens in order have lines in order. -/
theorem lines_sorted_of_shows {reports : List (Nat × Diagnosis)} {errors : List CompileError}
    (h : List.Forall₂ (Shows tokens) reports errors) (hreports : (reports.map Prod.fst).Pairwise (· ≤ ·))
    (hlines : (tokens.map Token.line).Pairwise (· ≤ ·)) : (errors.map CompileError.line).Pairwise (· ≤ ·) := by
  rw [List.pairwise_map, List.pairwise_iff_getElem] at hreports hlines ⊢
  intro i j hi hj hij
  have hlength := h.length_eq
  obtain ⟨t, ht, he⟩ := h.get (by omega) hi
  obtain ⟨u, hu, he'⟩ := h.get (by omega) hj
  have hle := hreports i j (by omega) (by omega) hij
  rw [List.get_eq_getElem] at ht hu he he'
  rw [he, he']
  change t.line ≤ u.line
  obtain ⟨hti, rfl⟩ := List.getElem?_eq_some_iff.1 ht
  obtain ⟨huj, rfl⟩ := List.getElem?_eq_some_iff.1 hu
  rcases hle.lt_or_eq with hlt | heq
  · exact hlines _ _ hti huj hlt
  · simp [heq]

/-- A recovery stands between two errors. -/
theorem Reported.recovery_mem {o : Observed} {n : Nat} (h : o.Reported tokens n) {before between after : List Incident}
    {i j : Nat} {d d' : Diagnosis}
    (heq : o.incidents = before ++ .error i d :: (between ++ .error j d' :: after)) : .recovery ∈ between := by
  have hapart := (List.isChain_append.1 (heq ▸ h.apart)).2.1
  cases between with
  | nil =>
    rcases hapart.rel with hno | hno <;> cases hno
  | cons k between =>
    rcases hapart.rel with hno | rfl
    · cases hno
    · exact List.mem_cons_self

end Observed

/-- The errors of a source are those that its parser finds. -/
theorem parse_errors_eq {source : String} {heap heap' : Heap} {roots : Thunk (List Handle)}
    {errors : Array CompileError} (h : compile source heap roots = (.error errors, heap')) :
    (Compile.parse (Compiler.fuel (Compiler.start source heap roots).rest.length)
      (Compiler.start source heap roots)).2.errors = errors := by
  rw [compile_eq] at h
  dsimp only at h
  generalize Compile.parse _ _ = parsed at h ⊢
  obtain ⟨d, c⟩ := parsed
  dsimp only at h ⊢
  split at h
  · cases h
  · exact Except.error.inj (Prod.mk.inj h).1

open Compile Observed in
/-- **Errors are reported in the order of the source.** They stand at tokens whose positions and lines do not
decrease, and between two of them `synchronize` is called. -/
theorem reports_in_order {source : String} {heap heap' : Heap} {roots : Thunk (List Handle)}
    {errors : Array CompileError} (h : compile source heap roots = (.error errors, heap')) :
    ∃ o : Observed,
      Runs (Source.ofString source).tokens (parse (Compiler.fuel (Compiler.start source heap roots).rest.length))
        { compiler := Compiler.start source heap roots } o ∧
      o.compiler.errors = errors ∧
      List.Forall₂ (Shows (Source.ofString source).tokens) o.reports errors.toList ∧
      (o.reports.map Prod.fst).Pairwise (· ≤ ·) ∧
      (errors.toList.map CompileError.line).Pairwise (· ≤ ·) ∧
      ∀ before between after i j d d',
        o.incidents = before ++ .error i d :: (between ++ .error j d' :: after) → .recovery ∈ between := by
  obtain ⟨o, hruns, ho⟩ := parse_leads source heap roots
    (Compiler.fuel (Compiler.start source heap roots).rest.length)
  have herrors : o.compiler.errors = errors := by
    rw [hruns.compiler_eq]
    dsimp only
    exact parse_errors_eq h
  have hshows := herrors ▸ ho.reported.errors
  exact ⟨o, hruns, herrors, hshows, ho.reported.sorted,
    lines_sorted_of_shows hshows ho.reported.sorted (Source.lines_sorted source),
    fun before between after i j d d' => ho.reported.recovery_mem⟩

open Observed in
theorem reports_in_order_twice : ∃ (errors : Array CompileError) (heap' : Heap) (o : Observed),
    compile "print ;\nvar 1;" {} (Thunk.pure []) = (.error errors, heap') ∧
      errors.toList.map CompileError.line = [1, 2] ∧
      List.Forall₂ (Shows (Source.ofString "print ;\nvar 1;").tokens) o.reports errors.toList ∧
      (o.reports.map Prod.fst).Pairwise (· ≤ ·) := by
  have hlines : (match (compile "print ;\nvar 1;" {} (Thunk.pure [])).1 with
    | .ok _ => []
    | .error errors => errors.toList.map CompileError.line) = [1, 2] := by decide +kernel
  rcases hcompile : compile "print ;\nvar 1;" {} (Thunk.pure []) with ⟨result, heap'⟩
  rw [hcompile] at hlines
  cases result with
  | ok h => cases hlines
  | error errors =>
    obtain ⟨o, -, -, hshows, hsorted, -⟩ := reports_in_order hcompile
    exact ⟨errors, heap', o, rfl, hlines, hshows, hsorted⟩

end LoxMachine
