import LoxMachine.Listing

/-!
# The lines of a listing

* `Listing.loop_next`: a loop that ends goes on from the state after a turn.
* `Listing.instruction_next`: inside of the code, the next instruction has a higher offset. So a listing comes
  to an end on any bytes: `wellFounded_line`.
* `Listing.Lists`: the lines that a listing has from an offset on, each with the offset of its instruction.
-/

namespace LoxMachine

theorem Except.inv_bind {ε α β : Type} {x : Except ε α} {f : α → Except ε β} {b : β} (h : x >>= f = .ok b) :
    ∃ a, x = .ok a ∧ f a = .ok b := by
  cases x with
  | error e => cases h
  | ok a => exact ⟨a, rfl, h⟩

namespace Listing

variable {α β : Type} {heap : Heap} {chunk : Chunk} {op : Opcode} {offset next count : Nat} {text : String}
  {out : List String} {lines : List (Nat × String)}

/-! ## Loops -/

section Loops

variable {σ : Type} {turn : σ → Except Fault (Option σ)} {s s' : σ}

theorem loop_of_acc (ha : Acc (Leads turn) s) :
    loop turn s = turn s >>= fun next => next.elim (.ok s) (loop turn) := by
  have : Nonempty (Except Fault σ) := ⟨.ok s⟩
  rw [loop, WellFounded.partialExtrinsicFix_eq_apply_of_acc ha]
  split
  · rename_i fault h
    rw [h]
    rfl
  · rename_i h
    rw [h]
    rfl
  · rename_i s' h
    have hbind : (turn s >>= fun next => next.elim (.ok s) (loop turn)) = loop turn s' := by
      rw [h]
      rfl
    exact hbind.symm

theorem loop_error {fault : Fault} (h : turn s = .error fault) : loop turn s = .error fault := by
  rw [loop_of_acc ⟨_, fun s' hs' => by cases h.symm.trans hs'⟩, h]
  rfl

theorem loop_stop (h : turn s = .ok none) : loop turn s = .ok s := by
  rw [loop_of_acc ⟨_, fun s' hs' => by cases h.symm.trans hs'⟩, h]
  rfl

/-- **A loop that ends goes on from the state after a turn.** -/
theorem loop_next (ha : Acc (Leads turn) s) (h : Leads turn s' s) : loop turn s = loop turn s' := by
  rw [loop_of_acc ha, h]
  rfl

/-- As a turn leads to one state only, a loop ends if it ends from there. -/
theorem Leads.acc_iff (h : Leads turn s' s) : Acc (Leads turn) s ↔ Acc (Leads turn) s' := by
  refine ⟨fun ha => ha.inv h, fun ha => ⟨_, fun s'' hs'' => ?_⟩⟩
  cases h.symm.trans hs''
  exact ha

end Loops

/-! ## The next instruction -/

/-- The computation gives `a`: it has met neither a fault nor bytes that cannot be decoded. -/
def Gives (x : ExceptT DecodeError (Except Fault) α) (a : α) : Prop := x.run = .ok (.ok a)

theorem Gives.inv_bind {x : ExceptT DecodeError (Except Fault) α} {f : α → ExceptT DecodeError (Except Fault) β}
    {b : β} (h : Gives (x >>= f) b) : ∃ a, Gives x a ∧ Gives (f a) b := by
  unfold Gives at h
  rw [ExceptT.run_bind] at h
  obtain ⟨r, hr, h⟩ := Except.inv_bind h
  cases r with
  | error e => cases h
  | ok a => exact ⟨a, hr, h⟩

theorem Gives.inv_pure {a b : α} (h : Gives (pure a) b) : a = b := by
  cases h
  rfl

theorem Gives.inv_decode {e : Except DecodeError α} {a : α}
    (h : Gives (liftM e : ExceptT DecodeError (Except Fault) α) a) : e = .ok a := by
  cases e with
  | error e => cases h
  | ok b =>
    cases h
    rfl

theorem captureLines_next (h : captureLines chunk count offset = .ok (text, next)) : offset ≤ next := by
  induction count generalizing offset text next with
  | zero => exact Nat.le_of_eq (congrArg Prod.snd (Except.ok.inj h))
  | succ count ih =>
    obtain ⟨origin, -, h⟩ := Except.inv_bind h
    obtain ⟨index, -, h⟩ := Except.inv_bind h
    obtain ⟨⟨more, last⟩, hmore, h⟩ := Except.inv_bind h
    have hlast : last = next := congrArg Prod.snd (Except.ok.inj h)
    have hle := ih hmore
    omega

theorem operation_next (h : Gives (operation heap chunk op offset) (text, next)) : offset < next := by
  unfold operation at h
  split at h
  · cases h.inv_pure
    omega
  · obtain ⟨_, -, h⟩ := h.inv_bind
    cases h.inv_pure
    omega
  · obtain ⟨_, -, h⟩ := h.inv_bind
    obtain ⟨_, -, h⟩ := h.inv_bind
    cases h.inv_pure
    omega
  · obtain ⟨_, -, h⟩ := h.inv_bind
    cases h.inv_pure
    omega
  · obtain ⟨_, -, h⟩ := h.inv_bind
    cases h.inv_pure
    omega
  · obtain ⟨_, -, h⟩ := h.inv_bind
    obtain ⟨_, -, h⟩ := h.inv_bind
    obtain ⟨_, -, h⟩ := h.inv_bind
    cases h.inv_pure
    omega
  · obtain ⟨_, -, h⟩ := h.inv_bind
    obtain ⟨_, -, h⟩ := h.inv_bind
    obtain ⟨_, -, h⟩ := h.inv_bind
    obtain ⟨⟨_, last⟩, hlines, h⟩ := h.inv_bind
    cases h.inv_pure
    have hle := captureLines_next hlines.inv_decode
    omega

/-- **The next instruction is further on.** -/
theorem instruction_next (hin : offset < chunk.size) (h : instruction heap chunk offset = .ok (text, next)) :
    offset < next := by
  unfold instruction at h
  dsimp only at h
  split at h
  · have hnext : offset + 1 = next := congrArg Prod.snd (Except.ok.inj h)
    omega
  · have hnext : chunk.size = next := congrArg Prod.snd (Except.ok.inj h)
    omega
  · rename_i op _
    obtain ⟨r, hr, h⟩ := Except.inv_bind h
    cases r with
    | error e =>
      have hnext : chunk.size = next := congrArg Prod.snd (Except.ok.inj h)
      omega
    | ok r =>
      have hnext : r.2 = next := congrArg Prod.snd (Except.ok.inj h)
      exact Nat.lt_of_lt_of_eq (operation_next hr) hnext

/-! ## All lines -/

theorem line_of_lt (hin : offset < chunk.size) (h : instruction heap chunk offset = .ok (text, next)) :
    Leads (line heap chunk) ((text ++ "\n") :: out, next) (out, offset) := by
  rw [Leads, line, if_pos hin, h]
  rfl

theorem line_of_le (hle : chunk.size ≤ offset) : line heap chunk (out, offset) = .ok none := by
  rw [line, if_neg (Nat.not_lt.2 hle)]
  rfl

/-- **A listing ends**, whatever the bytes are. -/
theorem wellFounded_line (heap : Heap) (chunk : Chunk) : WellFounded (Leads (line heap chunk)) := by
  refine Subrelation.wf (fun {s' s} h => ?_) (measure fun s : List String × Nat => chunk.size - s.2).wf
  obtain ⟨out, offset⟩ := s
  rcases Nat.lt_or_ge offset chunk.size with hin | hle
  · rw [Leads, line, if_pos hin] at h
    obtain ⟨⟨text, next⟩, hi, h⟩ := Except.inv_bind h
    cases h
    have hnext := instruction_next hin hi
    change chunk.size - next < chunk.size - offset
    omega
  · cases (line_of_le hle).symm.trans h

/-- The lines from an offset on, each with the offset of its instruction. -/
inductive Lists (heap : Heap) (chunk : Chunk) : Nat → List (Nat × String) → Prop
  | stop {offset : Nat} (past : chunk.size ≤ offset) : Lists heap chunk offset []
  | line {offset next : Nat} {text : String} {lines : List (Nat × String)} (inside : offset < chunk.size)
      (read : instruction heap chunk offset = .ok (text, next)) (rest : Lists heap chunk next lines) :
      Lists heap chunk offset ((offset, text) :: lines)

/-- Lines under each other. -/
def page (lines : List (Nat × String)) : String := String.join (lines.map fun line => line.2 ++ "\n")

namespace Lists

/-- The offsets go up. -/
theorem sorted (h : Lists heap chunk offset lines) :
    (lines.map Prod.fst).Pairwise (· < ·) ∧ ∀ line ∈ lines, offset ≤ line.1 := by
  induction h with
  | stop => exact ⟨.nil, nofun⟩
  | @line offset next text lines inside read rest ih =>
    have hnext := instruction_next inside read
    have hbelow : ∀ line ∈ lines, offset < line.1 := fun line hline =>
      Nat.lt_of_lt_of_le hnext (ih.2 line hline)
    refine ⟨List.pairwise_cons.2 ⟨fun o ho => ?_, ih.1⟩, fun line hline => ?_⟩
    · obtain ⟨line, hline, rfl⟩ := List.mem_map.1 ho
      exact hbelow line hline
    · rcases List.mem_cons.1 hline with rfl | hline
      · exact Nat.le_refl _
      · exact Nat.le_of_lt (hbelow line hline)

theorem read (h : Lists heap chunk offset lines) {line : Nat × String} (hline : line ∈ lines) :
    ∃ next, instruction heap chunk line.1 = .ok (line.2, next) := by
  induction h with
  | stop => exact absurd hline List.not_mem_nil
  | line inside read rest ih =>
    rcases List.mem_cons.1 hline with rfl | hline
    · exact ⟨_, read⟩
    · exact ih hline

theorem loop (h : Lists heap chunk offset lines) (out : List String) :
    ∃ last, Listing.loop (Listing.line heap chunk) (out, offset) =
      .ok ((lines.map fun line => line.2 ++ "\n").reverse ++ out, last) := by
  induction h generalizing out with
  | @stop offset past =>
    refine ⟨offset, ?_⟩
    rw [loop_stop (line_of_le past)]
    rfl
  | line inside read _ ih =>
    rw [loop_next ((wellFounded_line heap chunk).apply _) (line_of_lt inside read), List.map_cons,
      List.reverse_cons, List.append_assoc]
    exact ih _

end Lists

/-- If every instruction can be listed, there are such lines. -/
theorem exists_lists (hok : ∀ o, ∃ r, instruction heap chunk o = .ok r) (offset : Nat) :
    ∃ lines, Lists heap chunk offset lines := by
  induction hn : chunk.size - offset using Nat.strongRecOn generalizing offset with
  | ind n ih =>
    rcases Nat.lt_or_ge offset chunk.size with hin | hle
    · obtain ⟨⟨text, next⟩, hi⟩ := hok offset
      have hnext := instruction_next hin hi
      obtain ⟨lines, hlines⟩ := ih (chunk.size - next) (by omega) next rfl
      exact ⟨_, .line hin hi hlines⟩
    · exact ⟨[], .stop hle⟩

/-- The listing of a chunk is its heading and its lines. -/
theorem chunk_of_lists (h : Lists heap chunk 0 lines) (title : String) :
    Listing.chunk heap chunk title = .ok (s!"== {title} ==\n" ++ page lines) := by
  obtain ⟨last, hlast⟩ := h.loop [s!"== {title} ==\n"]
  rw [Listing.chunk, hlast]
  change Except.ok (String.join ((lines.map fun line : Nat × String => line.2 ++ "\n").reverse ++ [_]).reverse) = _
  rw [List.reverse_append, List.reverse_reverse, List.reverse_singleton, List.singleton_append,
    String.join_cons]
  rfl

end Listing

end LoxMachine
