import LoxMachine.Proofs.Machine.Discipline

/-!
# Reading code

* `Machine.Consumes m bytes m'`: the innermost call has gone on over the bytes, and nothing else has changed.
* `Run.readOpcode_consumes`, …, `Run.readName_consumes`: what the actions that read code give comes from the
  bytes that they go over. Where they fail, there is no code to read, which is not the user's error.
-/

namespace LoxMachine

variable {m m' m'' : Machine} {bs bs' : List UInt8}

theorem Holds.concat {code : Array UInt8} {o : Nat} (h : Holds code o bs)
    (h' : Holds code (o + bs.length) bs') : Holds code o (bs ++ bs') := by
  intro i hi
  rcases Nat.lt_or_ge i bs.length with hlt | hge
  · rw [List.getElem?_append_left hlt]
    exact h i hlt
  · rw [List.getElem?_append_right hge, ← h' (i - bs.length) (by rw [List.length_append] at hi; omega)]
    congr 1
    omega

theorem Holds.left {code : Array UInt8} {o : Nat} (h : Holds code o (bs ++ bs')) : Holds code o bs := fun i hi => by
  rw [h i (by rw [List.length_append]; omega), List.getElem?_append_left hi]

theorem Holds.first {code : Array UInt8} {o : Nat} {b : UInt8} (h : Holds code o (b :: bs)) : Holds code o [b] :=
  @Holds.left [b] bs code o h

theorem Holds.right {code : Array UInt8} {o : Nat} (h : Holds code o (bs ++ bs')) :
    Holds code (o + bs.length) bs' := fun i hi => by
  rw [Nat.add_assoc, h (bs.length + i) (by rw [List.length_append]; omega),
    List.getElem?_append_right (Nat.le_add_right _ _), Nat.add_sub_cancel_left]

namespace Machine

/-- The innermost call has gone on over the bytes. -/
def Consumes (m : Machine) (bytes : List UInt8) (m' : Machine) : Prop :=
  ∃ f rest, m.frames = f :: rest ∧ m.GoesOn f bytes ∧
    m' = { m with frames := { f with ip := f.ip + bytes.length } :: rest }

/-- There is a call, and its function is there. -/
def Runs (m : Machine) : Prop := ∃ f rest g, m.frames = f :: rest ∧ m.heap.function f.function = .ok g

theorem Consumes.runs (h : m.Consumes bs m') : m'.Runs := by
  obtain ⟨f, rest, hf, ⟨g, hg, -⟩, rfl⟩ := h
  exact ⟨_, rest, g, rfl, hg⟩

theorem Consumes.heap_eq (h : m.Consumes bs m') : m'.heap = m.heap := by
  obtain ⟨f, rest, -, -, rfl⟩ := h
  rfl

theorem Runs.consumes_nil (h : m.Runs) : m.Consumes [] m := by
  obtain ⟨f, rest, g, hf, hg⟩ := h
  refine ⟨f, rest, hf, ⟨g, hg, fun i hi => absurd hi (Nat.not_lt_zero i)⟩, ?_⟩
  rw [List.length_nil, Nat.add_zero, ← hf]

/-- A constant of the running function. -/
def HasConstant (m : Machine) (i : UInt8) (v : Value) : Prop :=
  ∃ f rest g, m.frames = f :: rest ∧ m.heap.function f.function = .ok g ∧ g.chunk.constants[i.toNat]? = some v

theorem Consumes.append (h : m.Consumes bs m') (h' : m'.Consumes bs' m'') : m.Consumes (bs ++ bs') m'' := by
  obtain ⟨f, rest, hf, ⟨g, hg, hholds⟩, rfl⟩ := h
  obtain ⟨f', rest', hf', ⟨g', hg', hholds'⟩, rfl⟩ := h'
  cases hf'
  rw [hg] at hg'
  cases hg'
  refine ⟨f, rest, hf, ⟨g, hg, hholds.concat hholds'⟩, ?_⟩
  rw [List.length_append, Nat.add_assoc]

theorem Consumes.split (h : m.Consumes (bs ++ bs') m'') : ∃ m', m.Consumes bs m' ∧ m'.Consumes bs' m'' := by
  obtain ⟨f, rest, hf, ⟨g, hg, hholds⟩, rfl⟩ := h
  refine ⟨{ m with frames := { f with ip := f.ip + bs.length } :: rest }, ⟨f, rest, hf, ⟨g, hg, hholds.left⟩, rfl⟩,
    { f with ip := f.ip + bs.length }, rest, rfl, ⟨g, hg, hholds.right⟩, ?_⟩
  rw [List.length_append, Nat.add_assoc]

theorem Consumes.uncons {b : UInt8} (h : m.Consumes (b :: bs) m'') :
    ∃ m', m.Consumes [b] m' ∧ m'.Consumes bs m'' := @split m m'' [b] bs h

/-- What has been read of a constant is known from before. -/
theorem HasConstant.before {i : UInt8} {v : Value} (h : m.Consumes bs m') (hv : m'.HasConstant i v) :
    m.HasConstant i v := by
  obtain ⟨f, rest, hf, -, rfl⟩ := h
  obtain ⟨f', rest', g, hf', hg, hv⟩ := hv
  cases hf'
  exact ⟨f, rest, g, hf, hg, hv⟩

end Machine

namespace Run

variable {α : Type}

/-- The failure is not an error of the user. -/
def Blames (e : Failure) : Prop := ∀ r, e = .error r → r.isUser = false

/-- Where the action fails, it is not an error of the user. -/
abbrev Consuming (x : Run α) (m : Machine) (Q : α → Machine → Prop) : Prop :=
  Ends (fun e _ => Blames e) x m Q

theorem frame_consuming : Consuming frame m fun f m' => m' = m ∧ ∃ rest, m.frames = f :: rest := by
  unfold frame
  refine .get ?_
  cases hf : m.frames with
  | nil => exact .fail fun r hr => by cases hr; rfl
  | cons f rest => exact .pure ⟨rfl, rest, rfl⟩

theorem look_consuming (q : Heap → Except Fault α) : Consuming (look q) m fun a m' => m' = m ∧ q m.heap = .ok a := by
  cases hq : q m.heap with
  | ok a => exact .look hq ⟨rfl, rfl⟩
  | error e =>
    unfold Consuming Ends
    rw [look_error hq]
    exact nofun

theorem below_consuming {d : Nat} : Consuming (below d) m fun i m' => m' = m ∧ i + 1 + d = m.stack.size := by
  unfold below
  refine .get ?_
  dsimp only
  exact .ite (fun h => .pure ⟨rfl, by omega⟩) fun _ => .fail fun r hr => by cases hr; rfl

/-- The value `d` below the top. -/
theorem peek_consuming {d : Nat} : Consuming (peek d) m fun v m' => m' = m ∧
    ∃ i, i + 1 + d = m.stack.size ∧ m.stack[i]? = some v := by
  unfold peek slot
  refine below_consuming.bind fun i m₁ hi => .get ?_
  obtain ⟨rfl, hi⟩ := hi
  cases hv : m₁.stack[i]? with
  | none => exact .fail fun r hr => by cases hr; rfl
  | some v => exact .pure ⟨rfl, i, hi, hv⟩

theorem poke_consuming {d : Nat} {v : Value} : Consuming (poke d v) m fun _ m' =>
    ∃ i, i + 1 + d = m.stack.size ∧ m' = { m with stack := put m.stack i v } := by
  unfold poke setSlot
  refine below_consuming.bind fun i m₁ hi => .get ?_
  obtain ⟨rfl, hi⟩ := hi
  exact .ite (fun _ => .modify ⟨i, hi, rfl⟩) fun _ => .fail fun r hr => by cases hr; rfl

theorem runningChunk_consuming {f : Frame} :
    Consuming (runningChunk f) m fun c m' => m' = m ∧ ∃ g, m.heap.function f.function = .ok g ∧ c = g.chunk := by
  unfold runningChunk
  refine (look_consuming _).bind fun g m' hg => .pure ?_
  obtain ⟨rfl, hg⟩ := hg
  exact ⟨rfl, g, hg, rfl⟩

theorem read8_eq_ok {c : Chunk} {o : Nat} {b : UInt8} (h : c.read8 o = .ok b) : c.code[o]? = some b := by
  unfold Chunk.read8 at h
  split at h
  · rename_i hb
    cases h
    exact hb
  · cases h

theorem jumpTo_consumes {f : Frame} {rest : List Frame} {g : Function} {bytes : List UInt8}
    {E : Failure → Machine → Prop} (hf : m.frames = f :: rest) (hg : m.heap.function f.function = .ok g)
    (hb : Holds g.chunk.code f.ip bytes) :
    Ends E (jumpTo (f.ip + bytes.length)) m fun _ m' => m.Consumes bytes m' := by
  refine .modify ?_
  rw [hf]
  exact ⟨f, rest, hf, ⟨g, hg, hb⟩, rfl⟩

theorem readByte_consumes : Consuming readByte m fun b m' => m.Consumes [b] m' := by
  unfold readByte
  refine frame_consuming.bind fun f m₁ hf => runningChunk_consuming.bind fun c m₂ hc => ?_
  obtain ⟨rfl, rest, hf⟩ := hf
  obtain ⟨rfl, g, hg, rfl⟩ := hc
  cases hb : g.chunk.read8 f.ip with
  | error e => exact .fail fun r hr => by cases hr; rfl
  | ok b =>
    have hholds : Holds g.chunk.code f.ip [b] := fun i hi => by
      obtain rfl : i = 0 := by simpa using hi
      exact read8_eq_ok hb
    exact (jumpTo_consumes hf hg hholds).bind fun _ m' h => .pure h

theorem readDistance_consumes : Consuming readDistance m fun d m' =>
    ∃ high low, m.Consumes [high, low] m' ∧ d = distance high low := by
  unfold readDistance
  refine frame_consuming.bind fun f m₁ hf => runningChunk_consuming.bind fun c m₂ hc => ?_
  obtain ⟨rfl, rest, hf⟩ := hf
  obtain ⟨rfl, g, hg, rfl⟩ := hc
  unfold Chunk.read16
  cases hhigh : g.chunk.read8 f.ip with
  | error e => exact .fail fun r hr => by cases hr; rfl
  | ok high =>
    cases hlow : g.chunk.read8 (f.ip + 1) with
    | error e => exact .fail fun r hr => by cases hr; rfl
    | ok low =>
      have hholds : Holds g.chunk.code f.ip [high, low] := fun i hi =>
        match i, hi with
        | 0, _ => read8_eq_ok hhigh
        | 1, _ => read8_eq_ok hlow
      exact (jumpTo_consumes hf hg hholds).bind fun _ m' h => .pure ⟨high, low, h, rfl⟩

theorem readOpcode_consumes : Consuming readOpcode m fun op m' => m.Consumes [op.toByte] m' := by
  unfold readOpcode
  refine readByte_consumes.bind fun b m₁ h => ?_
  cases hop : Opcode.ofByte? b with
  | none => exact .fail fun r hr => by cases hr; rfl
  | some op =>
    rw [← Opcode.ofByte?_eq_some_iff.1 hop] at h
    exact .pure h

theorem readConstant_consumes : Consuming readConstant m fun v m' => ∃ i, m.Consumes [i] m' ∧ m.HasConstant i v := by
  unfold readConstant
  refine readByte_consumes.bind fun i m₁ h => frame_consuming.bind fun f m₂ hf =>
    runningChunk_consuming.bind fun c m₃ hc => ?_
  obtain ⟨rfl, rest, hf⟩ := hf
  obtain ⟨rfl, g, hg, rfl⟩ := hc
  cases hv : g.chunk.constants[i.toNat]? with
  | none => exact .fail fun r hr => by cases hr; rfl
  | some v => exact .pure ⟨i, h, .before h ⟨f, rest, g, hf, hg, hv⟩⟩

theorem asKind_eq_some {heap : Heap} {kind : ObjectKind} {v : Value} {x : Handle}
    (h : heap.asKind kind v = .ok (some x)) : v = .obj x ∧ heap.kind? x = some kind := by
  cases v with
  | obj y =>
    cases hc : heap.cell? y with
    | none => simp [Heap.asKind, Heap.object, hc, bind, Except.bind] at h
    | some cell =>
      rw [asKind_of_cell? hc] at h
      split at h
      · rename_i hkind
        cases h
        exact ⟨rfl, by rw [Heap.kind?_of_cell? hc, hkind]⟩
      · cases h
  | _ => cases h

theorem requireKind_ends {E : Failure → Machine → Prop} {kind : ObjectKind} {v : Value} {r : RuntimeError}
    (hr : E (.error r) m) (hfault : ∀ f, E (.fault f) m) :
    Ends E (requireKind kind v r) m fun x m' => m' = m ∧ v = .obj x ∧ m.heap.kind? x = some kind := by
  unfold requireKind asKind
  cases hx : m.heap.asKind kind v with
  | error f =>
    refine .bind (Q := fun _ _ => False) ?_ fun _ _ h => h.elim
    unfold Ends
    rw [look_error (q := (·.asKind kind v)) hx]
    exact hfault f
  | ok x =>
    refine .look_bind hx ?_
    cases x with
    | none => exact .fail hr
    | some x => exact .pure ⟨rfl, asKind_eq_some hx⟩

theorem readObject_consumes (kind : ObjectKind) : Consuming (readObject kind) m fun x m' =>
    ∃ i, m.Consumes [i] m' ∧ m.HasConstant i (.obj x) := by
  unfold readObject
  refine readByte_consumes.bind fun i m₁ h => frame_consuming.bind fun f m₂ hf =>
    runningChunk_consuming.bind fun c m₃ hc => ?_
  obtain ⟨rfl, rest, hf⟩ := hf
  obtain ⟨rfl, g, hg, rfl⟩ := hc
  cases hv : g.chunk.constants[i.toNat]? with
  | none => exact .fail fun r hr => by cases hr; rfl
  | some v =>
    refine (requireKind_ends (fun r hr => by cases hr; rfl) (fun _ => nofun)).mono fun x m' hx => ?_
    obtain ⟨rfl, rfl, -⟩ := hx
    exact ⟨i, h, .before h ⟨f, rest, g, hf, hg, hv⟩⟩

theorem readName_consumes : Consuming readName m fun x m' => ∃ i, m.Consumes [i] m' ∧ m.HasConstant i (.obj x) :=
  readObject_consumes .string

end Run

end LoxMachine
