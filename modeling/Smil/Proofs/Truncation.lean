import Smil.Proofs.Change
import Smil.Proofs.Runs

/-!
# Output that is cut off

A sink with too little room changes nothing but where a run ends. An instruction either leaves the
sink alone, and then does the same on every sink, or it prepares a line without a look at the sink
and writes it. So the same program on the same machine takes the same steps on a limited sink as on
an unlimited one until a line does not fit; this line is cut at the limit, and the run ends there
with an error at the instruction that wrote it.
-/

namespace Smil

open Bytecode

/-! ### Sinks -/

namespace Sink

/-- The start of two runs of bytes, cut within the first. -/
theorem extract_append_of_le {a b : ByteArray} {n : Nat} (h : n ≤ a.size) :
    (a ++ b).extract 0 n = a.extract 0 n := by
  rw [ByteArray.extract_append, Nat.zero_sub, Nat.sub_eq_zero_of_le h]
  simp

/-- The start of two runs of bytes, cut behind the first. -/
theorem extract_append_of_ge {a b : ByteArray} {n : Nat} (h : a.size ≤ n) :
    (a ++ b).extract 0 n = a ++ b.extract 0 (n - a.size) := by
  rw [ByteArray.extract_append, Nat.zero_sub]
  congr 1
  ext1
  rw [ByteArray.data_extract, Array.extract_eq_self_of_le (by simpa using h)]

/-- Writing nothing succeeds and changes nothing. -/
theorem write_empty (s : Sink) : s.write .empty = (true, s) := by
  obtain ⟨written, _ | room, flushFails⟩ := s <;> simp [write]

/-- Bytes may be written in pieces. The first piece that does not fit is cut, and those behind it
are not written. -/
theorem write_append (s : Sink) (a b : ByteArray) :
    s.write (a ++ b) = if (s.write a).1 then (s.write a).2.write b else (false, (s.write a).2) := by
  obtain ⟨written, _ | room, flushFails⟩ := s
  · simp [write, ByteArray.append_assoc]
  · by_cases ha : a.size ≤ room
    · by_cases hb : b.size ≤ room - a.size
      · have hab : a.size + b.size ≤ room := by omega
        simp [write, ha, hb, hab, ByteArray.append_assoc, Nat.sub_sub]
      · have hab : ¬ a.size + b.size ≤ room := by omega
        simp [write, ha, hb, hab, extract_append_of_ge ha, ByteArray.append_assoc]
    · have hab : ¬ a.size + b.size ≤ room := by omega
      simp [write, ha, hab, extract_append_of_le (Nat.le_of_not_le ha)]

/-- Whether bytes fit into a limited sink depends on their number only. -/
theorem write_fst_iff {written bytes : ByteArray} {room : Nat} {flushFails : Bool} :
    ((⟨written, some room, flushFails⟩ : Sink).write bytes).1 = true ↔ bytes.size ≤ room := by
  by_cases hfits : bytes.size ≤ room <;> simp [write, hfits]

end Sink

namespace Machine

variable {α β : Type}

/-! ### Actions that leave the sink alone -/

/-- The result of an action, on another sink. -/
def onSink (out : Sink) : EStateM.Result Cause Machine α → EStateM.Result Cause Machine α
  | .ok a m => .ok a { m with out }
  | .error cause m => .error cause { m with out }

/-- An action that does the same on every sink and leaves the sink alone. -/
def Silent (x : Action α) : Prop :=
  ∀ m out, x { m with out } = onSink out (x m)

namespace Silent

/-- Doing nothing leaves the sink alone. -/
theorem pure (a : α) : Silent (pure a) :=
  fun _ _ => rfl

/-- Failing leaves the sink alone. -/
theorem throw (cause : Cause) : Silent (throw cause : Action α) :=
  fun _ _ => rfl

/-- Two actions in a row leave the sink alone if each does. -/
theorem bind {x : Action α} {f : α → Action β} (hx : Silent x) (hf : ∀ a, Silent (f a)) :
    Silent (x >>= f) := by
  intro m out
  have hout := hx m out
  cases hm : x m with
  | ok a n =>
    rw [hm] at hout
    rw [bind_of_ok hm, bind_of_ok hout]
    exact hf a n out
  | error cause n =>
    rw [hm] at hout
    rw [bind_of_error hm, bind_of_error hout]
    rfl

/-- A change of the machine that leaves the sink alone. -/
theorem modify {f : Machine → Machine} (h : ∀ m out, f { m with out } = { f m with out }) :
    Silent (modify f : Action PUnit) := by
  intro m out
  change EStateM.Result.ok PUnit.unit (f { m with out }) = _
  rw [h]
  rfl

/-- An action that depends on the machine it starts from, but not on the sink. -/
theorem get {f : Machine → Action α} (h : ∀ m out, f { m with out } = f m)
    (hf : ∀ m, Silent (f m)) : Silent (get >>= f) := by
  intro m out
  change f { m with out } { m with out } = onSink out (f m m)
  rw [h]
  exact hf m m out

/-- Pushing an operand leaves the sink alone. -/
theorem push (h : Handle) : Silent (push h) :=
  modify fun _ _ => rfl

/-- Popping an operand leaves the sink alone. -/
theorem pop : Silent pop := by
  refine get (fun _ _ => rfl) fun m => ?_
  cases m.operands with
  | nil => exact throw _
  | cons h rest => exact bind (modify fun _ _ => rfl) fun _ => pure h

/-- Popping several operands leaves the sink alone. -/
theorem popMany (count : Nat) : Silent (popMany count) := by
  refine get (fun _ _ => rfl) fun m => ?_
  dsimp only
  split
  · exact throw _
  · exact bind (modify fun _ _ => rfl) fun _ => pure _

/-- Reading an object leaves the sink alone. -/
theorem read (h : Handle) : Silent (read h) := by
  refine get (fun _ _ => rfl) fun m => ?_
  split
  · exact pure _
  · exact throw _

/-- Overwriting an object leaves the sink alone. -/
theorem store (h : Handle) (v : Value) : Silent (store h v) := by
  refine get (fun _ _ => rfl) fun m => ?_
  split
  · exact modify fun _ _ => rfl
  · exact throw _

/-- Creating an object leaves the sink alone. -/
theorem create (v : Value) : Silent (create v) :=
  modify fun _ _ => rfl

/-- Popping the text of an object leaves the sink alone. -/
theorem popText : Silent popText :=
  bind pop fun h => bind (read h) fun v => pure v.toText

/-- Popping the evaluation stack leaves the sink alone. -/
theorem popStack : Silent popStack := by
  refine bind (fun _ _ => rfl) fun popped => ?_
  cases popped with
  | none => exact throw _
  | some h => exact pure h

/-- Objects that are read one after the other. -/
theorem mapM_read (args : List Handle) : Silent (args.mapM Machine.read) := by
  induction args with
  | nil => exact pure []
  | cons h args ih =>
    rw [List.mapM_cons]
    exact bind (read h) fun v => bind ih fun vs => pure (v :: vs)

/-- Loading a variable leaves the sink alone. -/
theorem load (name : String) : Silent (load name) :=
  bind (fun _ _ => rfl) push

/-- Giving a name another handle leaves the sink alone. -/
theorem rebind (name : String) (h : Handle) : Silent (rebind name h) := by
  refine bind (modify fun m out => ?_) fun _ => push h
  dsimp only
  split <;> rfl

end Silent

/-- An instruction that writes no line leaves the sink alone. -/
theorem execute_silent {i : Instruction} (hi : i.writesLine = false) (next : Nat) :
    Silent (execute i next) := by
  cases i with
  | load name => exact .bind (.load name) fun _ => .pure _
  | loadNamed => exact .bind .popText fun name => .bind (.load name) fun _ => .pure _
  | assign mode =>
    have hassign : Silent (assign mode) :=
      .bind .pop fun target => .bind .pop fun source => .bind (.read source) fun v =>
        .bind (.store target (stored mode v)) fun _ => .push target
    exact .bind hassign fun _ => .pure _
  | binary op =>
    have hoperate : Silent (operate op) := by
      refine .bind .pop fun b => .bind .pop fun a => .bind (.read a) fun v => .bind (.read b)
        fun w => ?_
      cases Value.operate op v w with
      | ok result => exact .create result
      | error cause => exact .throw cause
    exact .bind hoperate fun _ => .pure _
  | length => exact .bind .pop fun h => .bind (.read h) fun v => .bind (.create _) fun _ => .pure _
  | print _ | hello | helloWorld => cases hi
  | stackPush => exact .bind .pop fun h => .bind (.modify fun _ _ => rfl) fun _ => .pure _
  | stackPop name => exact .bind .popStack fun h => .bind (.rebind name h) fun _ => .pure _
  | stackPopNamed =>
    exact .bind .popText fun name =>
      .bind .popStack fun h => .bind (.rebind name h) fun _ => .pure _
  | stackClear => exact .bind (.modify fun _ _ => rfl) fun _ => .pure _
  | pop => exact .bind (.bind .pop fun _ => .pure _) fun _ => .pure _
  | jumpIfNotPositive distance => exact .bind .pop fun h => .bind (.read h) fun v => .pure _
  | loop distance =>
    simp only [execute]
    split
    · exact .pure _
    · exact .throw _
  | exit code => exact .pure _
  | finish => exact .pure _

/-! ### Instructions that write a line -/

/-- What follows a write: the run goes on, or it ends since the sink is full. -/
def afterWrite (next : Nat) (m : Machine) : Bool × Sink → EStateM.Result Cause Machine Progress
  | (true, out) => .ok (.goto next) { m with out }
  | (false, out) => .error (.output Sink.fullDetail) { m with out }

/-- What a machine does at some place with its sink. Either it leaves the sink alone, or it writes a
line that does not depend on the sink. -/
def Outputs (x : Action Progress) (next : Nat) (m : Machine) : Prop :=
  (∀ out, x { m with out } = onSink out (x m)) ∨
    ∃ (line : String) (n : Machine),
      ∀ out, x { m with out } = afterWrite next n (out.write (line ++ "\n").toUTF8)

/-- A line that is found without a look at the sink. -/
theorem outputs_writeLine {x : Action String} (hx : Silent x) (next : Nat) (m : Machine) :
    Outputs (x >>= fun line => writeLine line >>= fun _ => pure (.goto next)) next m := by
  cases hm : x m with
  | error cause n =>
    left
    intro out
    have hout := hx m out
    rw [hm] at hout
    rw [bind_of_error hm, bind_of_error hout]
    rfl
  | ok line n =>
    right
    refine ⟨line, n, fun out => ?_⟩
    have hout := hx m out
    rw [hm] at hout
    rw [bind_of_ok hout]
    refine (Memory.writeLine_bind line next ⟨n.heap, n.symbols, n.stack, out⟩ n.operands).trans ?_
    unfold Memory.writeLine
    rcases out.write (line ++ "\n").toUTF8 with ⟨_ | _, written⟩ <;> rfl

/-- A print first collects its line. -/
theorem execute_print_eq (count next : Nat) :
    execute (.print count) next = (do
      let args ← popMany count
      let values ← args.mapM read
      return " ".intercalate (values.map Value.toText)) >>= fun line =>
        writeLine line >>= fun _ => pure (.goto next) := by
  simp only [execute, print, bind_assoc, pure_bind]

/-- A greeting first finds the name. -/
theorem execute_hello_eq (next : Nat) :
    execute .hello next = (do
      let name ← popText
      return "Hello, " ++ name ++ "!") >>= fun line =>
        writeLine line >>= fun _ => pure (.goto next) := by
  simp only [execute, bind_assoc, pure_bind]

/-- An instruction that writes a line finds the line without a look at the sink. -/
theorem execute_outputs {i : Instruction} (hi : i.writesLine = true) (next : Nat) (m : Machine) :
    Outputs (execute i next) next m := by
  cases i with
  | print count =>
    rw [execute_print_eq]
    have hline := Silent.bind (.popMany count) fun args => .bind (.mapM_read args) fun values =>
      .pure (" ".intercalate (values.map Value.toText))
    exact outputs_writeLine hline next m
  | hello =>
    rw [execute_hello_eq]
    have hline := Silent.bind .popText fun name => .pure ("Hello, " ++ name ++ "!")
    exact outputs_writeLine hline next m
  | helloWorld => exact outputs_writeLine (.pure "Hello, world!") next m
  | _ => cases hi

/-- A step leaves the sink alone, or its instruction writes a line that does not depend on the
sink. -/
theorem step_outputs (chunk : Chunk) (ip : Nat) (m : Machine) :
    (∀ out, step chunk ip { m with out } = onSink out (step chunk ip m)) ∨
      ∃ i next line n, Instruction.fetch chunk ip = .ok (i, next) ∧ i.writesLine = true ∧
        ∀ out : Sink, step chunk ip { m with out } =
          afterWrite next n (out.write (line ++ "\n").toUTF8) := by
  unfold step
  cases hfetch : Instruction.fetch chunk ip with
  | error f => exact Or.inl fun _ => rfl
  | ok r =>
    obtain ⟨i, next⟩ := r
    cases hi : i.writesLine with
    | false => exact Or.inl (execute_silent hi next m)
    | true =>
      rcases execute_outputs hi next m with hsilent | ⟨line, n, hwrite⟩
      · exact Or.inl hsilent
      · exact Or.inr ⟨i, next, line, n, rfl, hi, hwrite⟩

/-! ### Runs on other sinks -/

/-- The instruction at `ip` writes the line that no longer fits into the sink `out`, in a run from
`start` on a sink that takes everything. -/
def OverflowsAt (chunk : Chunk) (start : Nat × Machine) (out : Sink) (ip : Nat) : Prop :=
  ∃ before after i next earlier line, Steps chunk start (ip, before) ∧
    Instruction.fetch chunk ip = .ok (i, next) ∧ i.writesLine = true ∧
    Step chunk (ip, before) (next, after) ∧
    before.out.written = start.2.out.written ++ earlier ∧
    after.out.written = start.2.out.written ++ (earlier ++ line) ∧
    (out.write earlier).1 = true ∧ (out.write (earlier ++ line)).1 = false

variable {chunk : Chunk} {a b : Nat × Machine} {ip budget : Nat} {m last : Machine}
  {result : Except Error Completion}

/-- A step in front whose output fits. -/
theorem OverflowsAt.of_step {out : Sink} {bytes : ByteArray} (hstep : Step chunk a b)
    (hwritten : b.2.out.written = a.2.out.written ++ bytes) (hfits : (out.write bytes).1 = true)
    (h : OverflowsAt chunk b (out.write bytes).2 ip) : OverflowsAt chunk a out ip := by
  obtain ⟨before, after, i, next, earlier, line, hsteps, hfetch, hi, hlast, hbefore, hafter, hfit,
    hover⟩ := h
  refine ⟨before, after, i, next, bytes ++ earlier, line, .head hstep hsteps, hfetch, hi, hlast,
    ?_, ?_, ?_, ?_⟩
  · rw [hbefore, hwritten, ByteArray.append_assoc]
  · rw [hafter, hwritten, ByteArray.append_assoc, ByteArray.append_assoc]
  · rw [Sink.write_append, if_pos hfits]
    exact hfit
  · rw [ByteArray.append_assoc, Sink.write_append, if_pos hfits]
    exact hover

/-- What a run that ends on one sink does on another, given the text that it writes: it ends in the
same way if the text fits, and otherwise at the instruction whose line does not. -/
def EndsOnSink (chunk : Chunk) (budget ip : Nat) (m : Machine) (result : Except Error Completion)
    (last : Machine) (text : String) (out : Sink) : Prop :=
  ((out.write text.toUTF8).1 = true → runFrom chunk budget ip { m with out } =
    some (result, { last with out := (out.write text.toUTF8).2 })) ∧
  ((out.write text.toUTF8).1 = false → ∃ ip' last', OverflowsAt chunk (ip, m) out ip' ∧
    runFrom chunk budget ip { m with out } =
      some (.error ⟨.output Sink.fullDetail, chunk.spans[ip']?, none⟩, last') ∧
    last'.out = (out.write text.toUTF8).2)

/-- A run that ends without having written anything more. -/
theorem EndsOnSink.of_nothing {out : Sink}
    (h : runFrom chunk budget ip { m with out } = some (result, { last with out })) :
    EndsOnSink chunk budget ip m result last "" out := by
  have hempty : "".toUTF8 = ByteArray.empty := by simp
  unfold EndsOnSink
  rw [hempty, Sink.write_empty]
  exact ⟨fun _ => h, fun hfull => by cases hfull⟩

/-- A step in front that writes a text for which both sinks have room. -/
theorem EndsOnSink.of_step {out : Sink} {ip' : Nat} {n : Machine} {first text : String}
    (hstep : Step chunk (ip, m) (ip', n))
    (hwritten : n.out.written = m.out.written ++ first.toUTF8)
    (hfits : (out.write first.toUTF8).1 = true)
    (hother : Step chunk (ip, { m with out }) (ip', { n with out := (out.write first.toUTF8).2 }))
    (h : EndsOnSink chunk budget ip' n result last text (out.write first.toUTF8).2) :
    EndsOnSink chunk (budget + 1) ip m result last (first ++ text) out := by
  have hwrite :
      out.write (first ++ text).toUTF8 = (out.write first.toUTF8).2.write text.toUTF8 := by
    rw [String.toUTF8_eq_toByteArray, String.toByteArray_append]
    exact (Sink.write_append _ _ _).trans (if_pos hfits)
  have hrun : runFrom chunk (budget + 1) ip { m with out } =
      runFrom chunk budget ip' { n with out := (out.write first.toUTF8).2 } := hother.runFrom budget
  unfold EndsOnSink at h ⊢
  rw [hrun, hwrite]
  refine ⟨h.1, fun hfull => ?_⟩
  obtain ⟨ip'', last', hoverflows, hend, hout⟩ := h.2 hfull
  exact ⟨ip'', last', .of_step hstep hwritten hfits hoverflows, hend, hout⟩

/-- A sink that takes everything takes the line. -/
theorem step_of_room {next : Nat} {n : Machine} {line : String}
    (hwrite : ∀ out : Sink, step chunk ip { m with out } =
      afterWrite next n (out.write line.toUTF8)) (hroom : m.out.room = none) :
    Step chunk (ip, m)
      (next, { n with out := ⟨m.out.written ++ line.toUTF8, none, m.out.flushFails⟩ }) := by
  refine (hwrite m.out).trans ?_
  simp only [Sink.write, hroom]
  rfl

/-- A line that does not fit ends the run, whatever would follow. -/
theorem EndsOnSink.of_overflow {out : Sink} {i : Instruction} {next : Nat} {n : Machine}
    {line : String} (hfetch : Instruction.fetch chunk ip = .ok (i, next))
    (hi : i.writesLine = true)
    (hwrite : ∀ out : Sink, step chunk ip { m with out } =
      afterWrite next n (out.write line.toUTF8))
    (hroom : m.out.room = none) (hfull : (out.write line.toUTF8).1 = false) (text : String) :
    EndsOnSink chunk (budget + 1) ip m result last (line ++ text) out := by
  have hcut : out.write (line ++ text).toUTF8 = (false, (out.write line.toUTF8).2) := by
    rw [String.toUTF8_eq_toByteArray, String.toByteArray_append]
    refine (Sink.write_append _ _ _).trans (if_neg ?_)
    rw [← String.toUTF8_eq_toByteArray, hfull]
    simp
  have hother : step chunk ip { m with out } = .error (.output Sink.fullDetail)
      { n with out := (out.write line.toUTF8).2 } := by
    rw [hwrite out]
    rcases hpair : out.write line.toUTF8 with ⟨_ | _, written⟩
    · rfl
    · rw [hpair] at hfull
      cases hfull
  refine ⟨fun hfits => ?_, fun _ => ⟨ip, { n with out := (out.write line.toUTF8).2 }, ?_, ?_, ?_⟩⟩
  · rw [hcut] at hfits
    cases hfits
  · refine ⟨m, _, i, next, .empty, line.toUTF8, .refl, hfetch, hi,
      step_of_room hwrite hroom, ?_, ?_, ?_, ?_⟩
    · rw [ByteArray.append_empty]
    · rw [ByteArray.empty_append]
    · rw [Sink.write_empty]
    · rw [ByteArray.empty_append]
      exact hfull
  · rw [runFrom, hother]
  · rw [hcut]

/-- A step that leaves the sink alone goes on with the same sink. -/
theorem out_of_silent {x : Action α} (h : ∀ out, x { m with out } = onSink out (x m)) {r : α}
    {n : Machine} (hx : x m = .ok r n) : n.out = m.out := by
  have hsame := h m.out
  rw [hx] at hsame
  have hn : n = { n with out := m.out } := (EStateM.Result.ok.inj hsame).2
  rw [hn]

/-- A run that ends on a sink which takes everything writes a text, and on any other sink it does
what the room for this text allows. -/
theorem exists_endsOnSink (hroom : m.out.room = none)
    (h : runFrom chunk budget ip m = some (result, last)) :
    ∃ text : String, ∀ out : Sink, EndsOnSink chunk budget ip m result last text out := by
  induction budget generalizing ip m with
  | zero => cases h
  | succ budget ih =>
    rcases step_outputs chunk ip m with hsilent | ⟨i, next, line, n, hfetch, hi, hwrite⟩
    · cases hstep : step chunk ip m with
      | ok progress n =>
        have hout := out_of_silent hsilent hstep
        rw [hstep] at hsilent
        cases progress with
        | goto ip' =>
          have hown : Step chunk (ip, m) (ip', n) := hstep
          rw [hown.runFrom] at h
          obtain ⟨text, htext⟩ := ih (by rw [hout, hroom]) h
          refine ⟨"" ++ text, fun out => ?_⟩
          have hempty : "".toUTF8 = ByteArray.empty := by simp
          refine EndsOnSink.of_step hown ?_ ?_ ?_ ?_
          · rw [hout, hempty, ByteArray.append_empty]
          · rw [hempty, Sink.write_empty]
          · rw [hempty, Sink.write_empty]
            exact hsilent out
          · rw [hempty, Sink.write_empty]
            exact htext out
        | stop c =>
          rw [runFrom, hstep] at h
          cases h
          refine ⟨"", fun out => .of_nothing ?_⟩
          rw [runFrom, hsilent out]
          rfl
      | error cause n =>
        rw [hstep] at hsilent
        rw [runFrom, hstep] at h
        cases h
        refine ⟨"", fun out => .of_nothing ?_⟩
        rw [runFrom, hsilent out]
        rfl
    · have hown := step_of_room hwrite hroom
      rw [hown.runFrom] at h
      obtain ⟨text, htext⟩ := ih rfl h
      refine ⟨(line ++ "\n") ++ text, fun out => ?_⟩
      cases hfits : (out.write (line ++ "\n").toUTF8).1 with
      | false => exact .of_overflow hfetch hi hwrite hroom hfits text
      | true =>
        refine EndsOnSink.of_step hown rfl hfits ?_ (htext _)
        refine (hwrite out).trans ?_
        rcases hpair : out.write (line ++ "\n").toUTF8 with ⟨_ | _, written⟩
        · rw [hpair] at hfits
          cases hfits
        · rfl

/-! ### Limited sinks -/

/-- The same machine on a sink with this room. -/
def withRoom (room : Option Nat) (m : Machine) : Machine :=
  { m with out := { m.out with room } }

/-- The instruction at `ip` writes the line with which the output, in a run of the chunk on a sink
that takes everything, grows beyond `size` bytes. -/
def GrowsBeyond (chunk : Chunk) (m : Machine) (size ip : Nat) : Prop :=
  ∃ before after i next, Steps chunk (0, { m with operands := [] }) (ip, before) ∧
    Instruction.fetch chunk ip = .ok (i, next) ∧ i.writesLine = true ∧
    Step chunk (ip, before) (next, after) ∧
    before.out.written.size ≤ size ∧ size < after.out.written.size

/-- A limited sink overflows where the output of the unlimited run grows beyond the limit. -/
theorem OverflowsAt.growsBeyond {limit : Nat} {flushFails : Bool}
    (h : OverflowsAt chunk (0, { m with operands := [] })
      ⟨m.out.written, some limit, flushFails⟩ ip) :
    GrowsBeyond chunk m (m.out.written.size + limit) ip := by
  obtain ⟨before, after, i, next, earlier, line, hsteps, hfetch, hi, hlast, hbefore, hafter, hfit,
    hover⟩ := h
  have hearlier : earlier.size ≤ limit := Sink.write_fst_iff.mp hfit
  have hline : ¬ (earlier ++ line).size ≤ limit := by
    rw [← Sink.write_fst_iff, hover]
    simp
  refine ⟨before, after, i, next, hsteps, hfetch, hi, hlast, ?_, ?_⟩
  · rw [hbefore, ByteArray.size_append]
    exact Nat.add_le_add_left hearlier _
  · rw [hafter, ByteArray.size_append]
    exact Nat.add_lt_add_left (Nat.lt_of_not_le hline) _

/-- A run ends with the sink into which its text was written. -/
theorem EndsOnSink.out_eq {text : String} (hroom : m.out.room = none)
    (h : runFrom chunk budget ip m = some (result, last))
    (hends : EndsOnSink chunk budget ip m result last text m.out) :
    last.out = ⟨m.out.written ++ text.toUTF8, none, m.out.flushFails⟩ := by
  have hwrite : m.out.write text.toUTF8 =
      (true, ⟨m.out.written ++ text.toUTF8, none, m.out.flushFails⟩) := by
    simp [Sink.write, hroom]
  have hsame := hends.1 (by rw [hwrite])
  rw [hwrite] at hsame
  have hlast := (Prod.mk.inj (Option.some.inj (h.symm.trans hsame))).2
  rw [hlast]

/-- A full sink cuts the output and changes nothing else. Let a run on a sink that takes everything
end, having written `output`. On a sink with room for `limit` bytes the same run ends with the same
result on the same machine if the output fits. Otherwise it ends with an output error, having
written the first `limit` bytes, and the error is placed at the instruction whose line crossed the
limit. -/
theorem run_limited {chunk : Chunk} {budget : Nat} {m last : Machine}
    {result : Except Error Completion}
    (h : (m.withRoom none).run budget chunk = some (result, last)) :
    ∃ output : ByteArray, last.out.written = m.out.written ++ output ∧
      ∀ limit : Nat,
        (output.size ≤ limit → (m.withRoom (some limit)).run budget chunk =
          some (result, last.withRoom (some (limit - output.size)))) ∧
        (limit < output.size → ∃ ip last',
          GrowsBeyond chunk (m.withRoom none) (m.out.written.size + limit) ip ∧
          (m.withRoom (some limit)).run budget chunk =
            some (.error ⟨.output Sink.fullDetail, chunk.spans[ip]?, none⟩, last') ∧
          last'.out.written = m.out.written ++ output.extract 0 limit) := by
  unfold run at h
  split at h
  · rename_i ended last₀ hrun
    obtain ⟨rfl, rfl⟩ := Prod.mk.inj (Option.some.inj h)
    obtain ⟨text, htext⟩ := exists_endsOnSink rfl hrun
    have hout := EndsOnSink.out_eq rfl hrun (htext _)
    refine ⟨text.toUTF8, by rw [hout]; rfl, fun limit => ?_⟩
    obtain ⟨hfits, hcut⟩ := htext ⟨m.out.written, some limit, m.out.flushFails⟩
    constructor
    · intro hsize
      have hlimited := hfits (Sink.write_fst_iff.mpr hsize)
      have hwrite : ((⟨m.out.written, some limit, m.out.flushFails⟩ : Sink).write text.toUTF8).2 =
          { last₀.out with room := some (limit - text.toUTF8.size) } := by
        rw [hout]
        simp only [Sink.write, if_pos hsize]
        rfl
      rw [hwrite] at hlimited
      unfold run
      rw [show runFrom chunk budget 0 { m.withRoom (some limit) with operands := [] } = _ from
        hlimited]
      cases ended <;> rfl
    · intro hsize
      have hover : ((⟨m.out.written, some limit, m.out.flushFails⟩ : Sink).write text.toUTF8).1 =
          false := by
        rw [← Bool.not_eq_true, Sink.write_fst_iff]
        exact Nat.not_le_of_lt hsize
      obtain ⟨ip, last', hoverflows, hlimited, hlast'⟩ := hcut hover
      refine ⟨ip, last', hoverflows.growsBeyond, ?_, ?_⟩
      · unfold run
        rw [show runFrom chunk budget 0 { m.withRoom (some limit) with operands := [] } = _ from
          hlimited]
        rfl
      · rw [hlast']
        simp only [Sink.write, if_neg (Nat.not_le_of_lt hsize)]
  · cases h

/-- Greets the world twice. -/
def twoGreetings : Chunk :=
  ⟨#[Opcode.helloWorld.toByte, Opcode.helloWorld.toByte, Opcode.finish.toByte],
    #[⟨0, 2, 1, 1⟩, ⟨3, 5, 1, 4⟩, ⟨3, 5, 1, 4⟩], #[]⟩

/-- There is room for both lines exactly, or for all of the second but its newline. -/
theorem run_limited_twoGreetings : ∃ (output : ByteArray) (last last' : Machine) (ip : Nat),
    output = "Hello, world!\nHello, world!\n".toUTF8 ∧ output.size = 28 ∧
    ((new .unlimited).withRoom none).run 3 twoGreetings = some (.ok .finished, last) ∧
    ((new .unlimited).withRoom (some 28)).run 3 twoGreetings =
      some (.ok .finished, last.withRoom (some 0)) ∧
    GrowsBeyond twoGreetings ((new .unlimited).withRoom none) 27 ip ∧
    ((new .unlimited).withRoom (some 27)).run 3 twoGreetings =
      some (.error ⟨.output Sink.fullDetail, twoGreetings.spans[ip]?, none⟩, last') ∧
    last'.out.written = "Hello, world!\nHello, world!".toUTF8 := by
  have hrun : (((new .unlimited).withRoom none).run 3 twoGreetings).map
      (fun r => (r.1, r.2.out.written)) =
        some (.ok .finished, "Hello, world!\nHello, world!\n".toUTF8) := by
    decide +kernel
  obtain ⟨⟨_, last⟩, hlast, heq⟩ := Option.map_eq_some_iff.mp hrun
  obtain ⟨rfl, hwritten⟩ := Prod.mk.inj heq
  obtain ⟨output, houtput, hlimits⟩ := run_limited hlast
  obtain rfl : output = "Hello, world!\nHello, world!\n".toUTF8 := by
    rw [← hwritten, houtput]
    exact ByteArray.empty_append.symm
  obtain ⟨ip, last', hgrows, hcut, hlast'⟩ := (hlimits 27).2 (by decide +kernel)
  exact ⟨_, last, last', ip, rfl, by decide +kernel, hlast, (hlimits 28).1 (by decide +kernel),
    hgrows, hcut, hlast'.trans (by decide +kernel)⟩

end Machine

end Smil
