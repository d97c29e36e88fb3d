import Smil.Proofs.Effect
import Smil.Proofs.Generation
import Smil.Proofs.Runs

/-!
# The height of the operand stack

The height of the operand stack at an offset of compiled code is what the instructions before the
offset leave more than they take. This is a function of the offset alone because every jump leads
to a line of the same height, which holds of loops since their bodies leave the height as it was.
-/

namespace Smil

open Bytecode

namespace Assembly

/-! ### Heights -/

/-- The number of operands that the code leaves more than it takes. -/
def gain : List Line → Int
  | [] => 0
  | l :: code => (l.instruction.pushes : Int) - l.instruction.pops + gain code

/-- Without code no operand is left. -/
@[simp] theorem gain_nil : gain [] = 0 := rfl

/-- The first instruction adds what it leaves more than it takes. -/
@[simp] theorem gain_cons (l : Line) (code : List Line) :
    gain (l :: code) = (l.instruction.pushes : Int) - l.instruction.pops + gain code := rfl

/-- Codes in a row add up. -/
@[simp] theorem gain_append (a b : List Line) : gain (a ++ b) = gain a + gain b := by
  induction a with
  | nil => simp
  | cons l a ih =>
    rw [List.cons_append, gain_cons, ih, gain_cons]
    omega

/-- The height of the operand stack at an offset: the gain of the lines that start before it. -/
def heightAt : List Line → Nat → Int
  | [], _ => 0
  | l :: code, offset =>
    if offset = 0 then 0
    else (l.instruction.pushes : Int) - l.instruction.pops +
      heightAt code (offset - l.instruction.size)

/-- The height behind a part of the code is the gain of that part. -/
theorem heightAt_size (before after : List Line) :
    heightAt (before ++ after) (size before) = gain before := by
  induction before with
  | nil => cases after <;> rfl
  | cons l before ih =>
    have hpos := l.instruction.size_pos
    rw [List.cons_append, heightAt, size, if_neg (by omega), Nat.add_sub_cancel_left, ih, gain_cons]

/-- Code has a part at an offset. -/
def Placed (code : List Line) (offset : Nat) (part : List Line) : Prop :=
  ∃ before after, code = before ++ (part ++ after) ∧ size before = offset

namespace Placed

variable {code a b part : List Line} {offset : Nat}

/-- The first of two parts. -/
theorem left (h : Placed code offset (a ++ b)) : Placed code offset a := by
  obtain ⟨before, after, hcode, hsize⟩ := h
  exact ⟨before, b ++ after, by rw [hcode, List.append_assoc], hsize⟩

/-- The second of two parts stands behind the first. -/
theorem right (h : Placed code offset (a ++ b)) : Placed code (offset + size a) b := by
  obtain ⟨before, after, hcode, rfl⟩ := h
  exact ⟨before ++ a, after, by simp [hcode], size_append before a⟩

/-- The part behind a line. -/
theorem tail {l : Line} (h : Placed code offset (l :: b)) :
    Placed code (offset + l.instruction.size) b :=
  right (a := [l]) h

/-- A part adds its gain to the height. -/
theorem heightAt_add (h : Placed code offset part) :
    heightAt code (offset + size part) = heightAt code offset + gain part := by
  obtain ⟨before, after, rfl, rfl⟩ := h
  rw [heightAt_size, ← List.append_assoc, ← size_append, heightAt_size, gain_append]

end Placed

/-! ### Code that keeps to its heights -/

/-- A line of the code starts at an offset, and the height there is the given one. -/
def Reaches (code : List Line) (offset : Nat) (height : Int) : Prop :=
  ∃ before l after, code = before ++ l :: after ∧ size before = offset ∧ gain before = height

/-- What a line needs of the code that it stands in: its operands, and lines of the right height
where it leads to. A line that leads nowhere ends the run, so it leaves no operands behind. -/
structure Admits (code before : List Line) (l : Line) : Prop where
  operands : (l.instruction.pops : Int) ≤ gain before
  back : ∀ distance, l.instruction = .loop distance → distance ≤ size before + l.instruction.size
  stop : l.instruction.targets (size before + l.instruction.size) = [] → gain before = 0
  targets : ∀ ip ∈ l.instruction.targets (size before + l.instruction.size),
    Reaches code ip (gain (before ++ [l]))

/-- The code admits each line of a part that stands behind the part read before. -/
def AdmitsAll (code : List Line) : List Line → List Line → Prop
  | _, [] => True
  | before, l :: part => Admits code before l ∧ AdmitsAll code (before ++ [l]) part

/-- A part is admitted line by line. -/
theorem admitsAll_cons {code before part : List Line} {l : Line} :
    AdmitsAll code before (l :: part) ↔ Admits code before l ∧
      AdmitsAll code (before ++ [l]) part := Iff.rfl

/-- A part in two parts is admitted if both are. -/
theorem admitsAll_append {code before a b : List Line} :
    AdmitsAll code before (a ++ b) ↔ AdmitsAll code before a ∧ AdmitsAll code (before ++ a) b := by
  induction a generalizing before with
  | nil => simp [AdmitsAll]
  | cons l a ih => simp only [List.cons_append, AdmitsAll, ih, and_assoc, List.append_assoc,
      List.nil_append]

/-- A line of code whose lines are all admitted. -/
theorem AdmitsAll.admits {code before after : List Line} {l : Line}
    (h : AdmitsAll code [] code) (hcode : code = before ++ l :: after) : Admits code before l := by
  rw [hcode, admitsAll_append, List.nil_append, ← hcode] at h
  exact h.2.1

/-- Code that has a rest has a line where the rest starts. -/
theorem reaches_of_append {code before after : List Line} (hcode : code = before ++ after)
    (hafter : after ≠ []) : Reaches code (size before) (gain before) := by
  obtain ⟨l, rest, rfl⟩ := List.exists_cons_of_ne_nil hafter
  exact ⟨before, l, rest, hcode, rfl, rfl⟩

/-- A part is admitted wherever it stands at a height that it needs and something follows. -/
def Balanced (need : Int → Prop) (part : List Line) : Prop :=
  ∀ before after, after ≠ [] → need (gain before) →
    AdmitsAll (before ++ (part ++ after)) before part

namespace Balanced

variable {need need' : Int → Prop} {a b : List Line}

/-- The lines of a part are admitted where the part stands. -/
theorem admitsAll {code before after : List Line} (h : Balanced need a)
    (hcode : code = before ++ (a ++ after)) (hafter : after ≠ []) (hneed : need (gain before)) :
    AdmitsAll code before a := by
  rw [hcode]
  exact h before after hafter hneed

/-- What asks for more can stand in for what asks for less. -/
theorem mono (h : Balanced need a) (himp : ∀ g, need' g → need g) : Balanced need' a :=
  fun before after hafter hneed => h before after hafter (himp _ hneed)

/-- Two parts, the second of which stands at the height that the first one leaves. -/
theorem append (ha : Balanced need a) (hb : Balanced need' b)
    (h : ∀ g, need g → need' (g + gain a)) : Balanced need (a ++ b) := by
  intro before after hafter hneed
  refine admitsAll_append.mpr ⟨?_, ?_⟩
  · rw [List.append_assoc]
    exact ha before (b ++ after) (List.append_ne_nil_of_right_ne_nil b hafter) hneed
  · have hrest := hb (before ++ a) after hafter (by
      rw [gain_append]
      exact h _ hneed)
    simpa using hrest

/-- A line that always leads to the next one needs its operands only. -/
theorem line {l : Line} (h : ∀ next, l.instruction.targets next = [next])
    (hpops : ∀ g, need g → (l.instruction.pops : Int) ≤ g) : Balanced need [l] := by
  intro before after hafter hneed
  refine ⟨⟨hpops _ hneed, ?_, ?_, ?_⟩, trivial⟩
  · intro distance hl
    have hself := h distance
    rw [hl] at hself
    have hzero : distance - distance = distance := List.singleton_inj.mp hself
    omega
  · intro hnil
    rw [h] at hnil
    cases hnil
  · intro ip hip
    rw [h, List.mem_singleton] at hip
    have hreach := reaches_of_append (List.append_assoc before [l] after).symm hafter
    rwa [size_append, size_singleton, ← hip] at hreach

/-- Code followed by a line that takes its operands from it. -/
theorem snoc (ha : Balanced need a) {l : Line}
    (h : ∀ next, l.instruction.targets next = [next])
    (hpops : ∀ g, need g → (l.instruction.pops : Int) ≤ g + gain a) :
    Balanced need (a ++ [l]) := by
  have hline : Balanced (fun g => (l.instruction.pops : Int) ≤ g) [l] := line h fun _ hg => hg
  exact ha.append hline hpops

end Balanced

namespace Admits

variable {code before rest : List Line} {l : Line}

/-- A line that leads nowhere needs that there are no operands. -/
theorem stop_of_gain (h : ∀ next, l.instruction.targets next = [])
    (hpops : l.instruction.pops = 0) (hgain : gain before = 0) : Admits code before l := by
  refine ⟨by simp [hpops, hgain], ?_, fun _ => hgain, ?_⟩
  · intro distance hl
    have hnil := h 0
    rw [hl] at hnil
    cases hnil
  · intro ip hip
    rw [h] at hip
    cases hip

/-- A jump over code that leaves the height as it is. -/
theorem jump {skipped : List Line} {span : Span} {distance : Nat}
    (hcode : code = before ++ ⟨.jumpIfNotPositive distance, span⟩ :: (skipped ++ rest))
    (hdistance : distance = size skipped) (hrest : rest ≠ []) (hbefore : gain before = 1)
    (hskipped : gain skipped = 0) : Admits code before ⟨.jumpIfNotPositive distance, span⟩ := by
  refine ⟨by simp [Instruction.pops, hbefore], fun _ h => ?_, fun h => ?_, fun ip hip => ?_⟩
  · cases h
  · cases h
  · have hnear : code = (before ++ [⟨.jumpIfNotPositive distance, span⟩]) ++ (skipped ++ rest) := by
      simp [hcode]
    have hnext := reaches_of_append hnear (List.append_ne_nil_of_right_ne_nil skipped hrest)
    have hfar := reaches_of_append (hnear.trans (List.append_assoc _ skipped rest).symm) hrest
    rw [size_append _ skipped, gain_append _ skipped, hskipped, Int.add_zero, ← hdistance] at hfar
    rcases List.mem_pair.mp hip with rfl | rfl
    · simpa using hnext
    · simpa using hfar

/-- A jump back over code that leaves the height as it is. -/
theorem loop {repeated : List Line} {span : Span} {distance : Nat}
    (hcode : code = before ++ (repeated ++ ⟨.loop distance, span⟩ :: rest))
    (hdistance : distance = size repeated + 3) (hbefore : gain before = 0)
    (hrepeated : gain repeated = 0) : Admits code (before ++ repeated) ⟨.loop distance, span⟩ := by
  refine ⟨by simp [Instruction.pops, hbefore, hrepeated], fun _ h => ?_, fun h => ?_,
    fun ip hip => ?_⟩
  · cases h
    simp only [size_append, Instruction.size]
    omega
  · cases h
  · have hstart : Reaches code (size before) (gain before) := reaches_of_append hcode (by simp)
    have hip' : ip = size before := by
      rw [List.mem_singleton.mp hip]
      simp only [size_append, Instruction.size]
      omega
    have hgain : gain (before ++ repeated ++ [⟨.loop distance, span⟩]) = gain before := by
      simp [hrepeated, Instruction.pushes, Instruction.pops]
    rw [hip', hgain]
    exact hstart

end Admits

end Assembly

namespace Codegen

open Assembly

/-! ### The heights of generated code -/

/-- The code of a value leaves one operand. -/
theorem gain_valueCode {e : Expr} (h : Evaluable e) : gain (valueCode e) = 1 := by
  induction h <;> simp_all [valueCode, Instruction.pushes, Instruction.pops]

/-- The code of several values leaves one operand for each. -/
theorem gain_valuesCode {es : List Expr} (h : ∀ e ∈ es, Evaluable e) :
    gain (valuesCode es) = es.length := by
  induction es with
  | nil => rfl
  | cons e es ih =>
    rw [valuesCode, gain_append, gain_valueCode (h e List.mem_cons_self),
      ih fun e he => h e (List.mem_cons_of_mem _ he), List.length_cons]
    omega

/-- The code of a value keeps to its heights, on top of any operands. -/
theorem balanced_valueCode {e : Expr} (h : Evaluable e) : Balanced (0 ≤ ·) (valueCode e) := by
  induction h with
  | input index span => exact Balanced.line (fun _ => rfl) fun _ hg => hg
  | var name inverted span => exact Balanced.line (fun _ => rfl) fun _ hg => hg
  | namedVar span hname ih =>
    refine ih.snoc (fun _ => rfl) fun g hg => ?_
    simp only [gain_valueCode hname, Instruction.pops]
    omega
  | assign span hsource htarget ihSource ihTarget =>
    -- The source's operand lies below while the target is evaluated.
    have htarget' : Balanced (1 ≤ ·) _ := ihTarget.mono fun g hg => by omega
    refine ihSource.append (htarget'.snoc (fun _ => rfl) fun g hg => ?_) fun g hg => ?_
    · simp only [gain_valueCode htarget, Instruction.pops]
      omega
    · simp only [gain_valueCode hsource]
      omega
  | binary op span hleft hright ihLeft ihRight =>
    have hright' : Balanced (1 ≤ ·) _ := ihRight.mono fun g hg => by omega
    refine ihLeft.append (hright'.snoc (fun _ => rfl) fun g hg => ?_) fun g hg => ?_
    · simp only [gain_valueCode hright, Instruction.pops]
      omega
    · simp only [gain_valueCode hleft]
      omega
  | popVar name inverted inner span => exact Balanced.line (fun _ => rfl) fun _ hg => hg
  | popNamed inner span hname ih =>
    refine ih.snoc (fun _ => rfl) fun g hg => ?_
    simp only [gain_valueCode hname, Instruction.pops]
    omega
  | lengthOf span hoperand ih =>
    refine ih.snoc (fun _ => rfl) fun g hg => ?_
    simp only [gain_valueCode hoperand, Instruction.pops]
    omega

/-- The code of several values keeps to its heights. -/
theorem balanced_valuesCode {es : List Expr} (h : ∀ e ∈ es, Evaluable e) :
    Balanced (0 ≤ ·) (valuesCode es) := by
  induction es with
  | nil => exact fun _ _ _ _ => trivial
  | cons e es ih =>
    have he := h e List.mem_cons_self
    have hrest := ih fun e he => h e (List.mem_cons_of_mem _ he)
    refine (balanced_valueCode he).append hrest fun g hg => ?_
    simp only [gain_valueCode he]
    omega

/-- A loop leaves the height as it is if its bodies do. -/
theorem gain_loopCode {condition thenBody elseBody : List Line} (hcondition : gain condition = 1)
    (hthen : gain thenBody = 0) (helse : gain elseBody = 0) (span : Span) :
    gain (loopCode condition thenBody elseBody span) = 0 := by
  simp [loopCode, hcondition, hthen, helse, Instruction.pushes, Instruction.pops]

/-- A loop keeps to its heights if its parts do: all three of its jumps lead to lines without
operands. -/
theorem balanced_loopCode {condition thenBody elseBody : List Line}
    (hcondition : Balanced (0 ≤ ·) condition) (hgain : gain condition = 1)
    (hthen : Balanced (· = 0) thenBody) (hgainThen : gain thenBody = 0)
    (helse : Balanced (· = 0) elseBody) (hgainElse : gain elseBody = 0) (span : Span) :
    Balanced (· = 0) (loopCode condition thenBody elseBody span) := by
  intro before after hafter hbefore
  -- The lines of the loop, and what has been read when each part starts.
  let skip : Line := ⟨.jumpIfNotPositive (size thenBody + size condition + 6), span⟩
  let skipElse : Line := ⟨.jumpIfNotPositive (size elseBody + 3), span⟩
  let back : Line := ⟨.loop (size thenBody + size condition + 6), span⟩
  have hskip : gain [skip] = -1 := rfl
  have hskipElse : gain [skipElse] = -1 := rfl
  have hback : gain [back] = 0 := rfl
  generalize hcode : before ++ (loopCode condition thenBody elseBody span ++ after) = code
  have hcode' : code = before ++ (condition ++ (skip :: (thenBody ++ (condition ++
      (skipElse :: back :: (elseBody ++ after)))))) := by
    rw [← hcode]
    simp [loopCode, skip, skipElse, back]
  have h₁ : gain (before ++ condition) = 1 := by rw [gain_append, hbefore, hgain]; rfl
  have h₂ : gain (before ++ condition ++ [skip]) = 0 := by rw [gain_append, h₁, hskip]; rfl
  have h₃ : gain (before ++ condition ++ [skip] ++ thenBody) = 0 := by
    rw [gain_append, h₂, hgainThen]
    rfl
  have h₄ : gain (before ++ condition ++ [skip] ++ thenBody ++ condition) = 1 := by
    rw [gain_append, h₃, hgain]
    rfl
  have h₅ : gain (before ++ condition ++ [skip] ++ thenBody ++ condition ++ [skipElse]) = 0 := by
    rw [gain_append, h₄, hskipElse]
    rfl
  change AdmitsAll code before (condition ++ (skip :: (thenBody ++ (condition ++
    (skipElse :: back :: elseBody)))))
  simp only [admitsAll_append, admitsAll_cons]
  refine ⟨?_, ?_, ?_, ?_, ?_, ?_, ?_⟩
  · exact hcondition.admitsAll hcode' (by simp) (by omega)
  · have hjump : code = (before ++ condition) ++ skip ::
        ((thenBody ++ (condition ++ [skipElse, back])) ++ (elseBody ++ after)) := by
      simp [hcode']
    refine Admits.jump hjump ?_ (by simp [hafter]) h₁ ?_
    · simp only [size_append, size, skipElse, back, Instruction.size]
      omega
    · simp [hgain, hgainThen, skipElse, back, Instruction.pushes, Instruction.pops]
  · exact hthen.admitsAll (by simp [hcode']; rfl) (by simp) h₂
  · exact hcondition.admitsAll (by simp [hcode']; rfl) (by simp) (by omega)
  · have hjump : code = (before ++ condition ++ [skip] ++ thenBody ++ condition) ++ skipElse ::
        ((back :: elseBody) ++ after) := by
      simp [hcode']
    refine Admits.jump hjump ?_ hafter h₄ ?_
    · simp only [size, back, Instruction.size]
      omega
    · simp [hgainElse, back, Instruction.pushes, Instruction.pops]
  · have hloop : code = (before ++ condition ++ [skip]) ++
        ((thenBody ++ (condition ++ [skipElse])) ++ back :: (elseBody ++ after)) := by
      simp [hcode']
    have hadmits := Admits.loop hloop (by simp [skipElse, Instruction.size]; omega) h₂
      (by simp [hgain, hgainThen, skipElse, Instruction.pushes, Instruction.pops])
    simpa using hadmits
  · have helse' : code = (before ++ condition ++ [skip] ++ thenBody ++ condition ++ [skipElse] ++
        [back]) ++ (elseBody ++ after) := by
      simp [hcode']
    refine helse.admitsAll helse' hafter ?_
    rw [gain_append, h₅, hback]
    rfl

/-- Statements leave the height as it is and keep to their heights if each of them does. -/
theorem balanced_statementsCode_of_forall {inputCount : Nat} {stmts : List Expr}
    (h : ∀ stmt ∈ stmts, gain (statementCode inputCount stmt) = 0 ∧
      Balanced (· = 0) (statementCode inputCount stmt)) :
    gain (statementsCode inputCount stmts) = 0 ∧
      Balanced (· = 0) (statementsCode inputCount stmts) := by
  induction stmts with
  | nil =>
    rw [statementsCode]
    exact ⟨gain_nil, fun _ _ _ _ => trivial⟩
  | cons stmt stmts ih =>
    obtain ⟨hgain, hbalanced⟩ := h stmt List.mem_cons_self
    obtain ⟨hgain', hbalanced'⟩ := ih fun s hs => h s (List.mem_cons_of_mem _ hs)
    rw [statementsCode]
    refine ⟨by rw [gain_append, hgain, hgain', Int.add_zero], ?_⟩
    exact hbalanced.append hbalanced' fun g hg => by rw [hg, hgain, Int.add_zero]

/-- The code of a value and a line that takes the value is a balanced statement. -/
theorem balanced_snoc {a : List Line} {l : Line} (hgain : gain a = l.instruction.pops)
    (hpushes : l.instruction.pushes = 0) (ha : Balanced (0 ≤ ·) a)
    (h : ∀ next, l.instruction.targets next = [next]) :
    gain (a ++ [l]) = 0 ∧ Balanced (· = 0) (a ++ [l]) := by
  refine ⟨by rw [gain_append, gain_cons, gain_nil, hgain, hpushes]; omega, ?_⟩
  have ha' : Balanced (· = 0) a := ha.mono fun g hg => by omega
  exact ha'.snoc h fun g hg => by omega

/-- The code of a statement leaves the height as it is and keeps to its heights. -/
theorem balanced_statementCode (inputCount : Nat) {stmt : Expr} (h : Executable stmt) :
    gain (statementCode inputCount stmt) = 0 ∧
      Balanced (· = 0) (statementCode inputCount stmt) := by
  induction h with
  | assign span h =>
    rw [statementCode]
    exact balanced_snoc (gain_valueCode h) rfl (balanced_valueCode h) fun _ => rfl
  | pop span h =>
    rw [statementCode]
    exact balanced_snoc (gain_valueCode h) rfl (balanced_valueCode h) fun _ => rfl
  | print span h =>
    rw [statementCode]
    exact balanced_snoc (gain_valuesCode h) rfl (balanced_valuesCode h) fun _ => rfl
  | hello span =>
    rw [statementCode, greetingCode]
    split
    · have hload : Balanced (0 ≤ ·) [⟨.load (inputName 0), span⟩] :=
        Balanced.line (fun _ => rfl) fun _ hg => hg
      exact balanced_snoc (a := [_]) rfl rfl hload fun _ => rfl
    · exact ⟨rfl, Balanced.line (fun _ => rfl) fun _ hg => Int.le_of_eq hg.symm⟩
  | exit code span =>
    rw [statementCode]
    refine ⟨rfl, fun before after _ hbefore => ⟨?_, trivial⟩⟩
    exact Admits.stop_of_gain (fun _ => rfl) rfl hbefore
  | push span h =>
    rw [statementCode]
    exact balanced_snoc (gain_valueCode h) rfl (balanced_valueCode h) fun _ => rfl
  | clear span =>
    rw [statementCode]
    exact ⟨rfl, Balanced.line (fun _ => rfl) fun _ hg => Int.le_of_eq hg.symm⟩
  | loop span hcondition _ _ ihThen ihElse =>
    rw [statementCode]
    obtain ⟨hgainThen, hthen⟩ := balanced_statementsCode_of_forall ihThen
    obtain ⟨hgainElse, helse⟩ := balanced_statementsCode_of_forall ihElse
    have hgain := gain_valueCode hcondition
    refine ⟨gain_loopCode hgain hgainThen hgainElse span, ?_⟩
    exact balanced_loopCode (balanced_valueCode hcondition) hgain hthen hgainThen helse hgainElse
      span
  | silent h =>
    rw [statementCode_silent inputCount h]
    exact ⟨gain_nil, fun _ _ _ _ => trivial⟩

/-- Statements leave the height as it is and keep to their heights. -/
theorem balanced_statementsCode (inputCount : Nat) {stmts : List Expr}
    (h : ∀ stmt ∈ stmts, Executable stmt) :
    gain (statementsCode inputCount stmts) = 0 ∧
      Balanced (· = 0) (statementsCode inputCount stmts) :=
  balanced_statementsCode_of_forall fun stmt hs => balanced_statementCode inputCount (h stmt hs)

/-- The code of a program admits all of its lines. -/
theorem admitsAll_programCode {p : Program} (h : ∀ stmt ∈ p.statements, Executable stmt) :
    AdmitsAll (programCode p) [] (programCode p) := by
  obtain ⟨hgain, hbalanced⟩ := balanced_statementsCode p.inputCount h
  refine admitsAll_append.mpr ⟨hbalanced.admitsAll rfl (by simp) rfl, ?_, trivial⟩
  exact Admits.stop_of_gain (fun _ => rfl) rfl hgain

end Codegen

end Smil
