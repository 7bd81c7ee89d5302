import Std.Data.HashMap.Lemmas
import Labyrinth.Proofs.Code.Places
import Labyrinth.Proofs.Machine.Steps

/-!
# Linking

Two other ways to run a code, which agree with `Code.run`. The one reads the code once and enters labels
and functions into tables, over which it puts the built-ins (`Code.tables`, `Symbols.op`). The other has
no places at all: at every jump and call it looks for the name in the code as it is written
(`Code.runByName`). Nothing is asked of the code. A name may be defined twice or not at all, a function
may have the name of a built-in, and a jump may lead into another function.
-/

namespace Labyrinth

open Std (HashMap)

/-! ### Names in a code -/

namespace Code

/-- The place of the first instruction that `key` gives a name, in a code that starts at `ip`. -/
def seek (key : Instruction → Option String) (name : String) (ip : Nat) : Code → Option Nat
  | [] => none
  | i :: code => if key i = some name then some ip else seek key name (ip + 1) code

theorem seek_eq (key : Instruction → Option String) (name : String) (ip : Nat) (code : Code) :
    code.seek key name ip = (code.findIdx? fun i => key i = some name).map (· + ip) := by
  induction code generalizing ip with
  | nil => rfl
  | cons i code ih =>
    rw [seek, List.findIdx?_cons]
    by_cases hi : key i = some name
    · simp [hi]
    · have hplace : (fun a => a + (ip + 1)) = (fun a => a + ip) ∘ fun a => a + 1 := by
        funext a
        exact Nat.add_assoc a ip 1 ▸ Nat.add_right_comm a ip 1
      simp [hi, ih, hplace]

theorem seek_label? (code : Code) (name : String) :
    code.seek Instruction.label? name 0 = code.labelAddress? name := by
  rw [seek_eq, labelAddress?_eq]
  simp

theorem seek_head? (code : Code) (name : String) :
    code.seek Instruction.head? name 1 = code.entry? name := by
  rw [seek_eq, entry?_eq]

theorem map_seek_head? (code : Code) (name : String) :
    (code.seek Instruction.head? name 0).map (· + 1) = code.entry? name := by
  rw [seek_eq, entry?_eq]
  simp

end Code

/-! ### Tables -/

/-- The places of labels, and those behind the heads of functions. -/
structure Symbols where
  labels : HashMap String Nat
  functions : HashMap String Nat

namespace Symbols

def empty : Symbols := ⟨∅, ∅⟩

/-- Enters the place of a name, if there is one. A name that has a place keeps it. -/
def enter (places : HashMap String Nat) (ip : Nat) : Option String → HashMap String Nat
  | some name => places.insertIfNew name ip
  | none => places

/-- Enters the names of a code that starts at `ip`. -/
def read (t : Symbols) (ip : Nat) : Code → Symbols
  | [] => t
  | i :: code =>
    read ⟨enter t.labels ip i.label?, enter t.functions (ip + 1) i.head?⟩ (ip + 1) code

/-- Puts the action of a built-in in place of what its name stood for. -/
def override (targets : HashMap String Target) (b : Builtin) : HashMap String Target :=
  match b.action with
  | some a => targets.insert b.name (.action a)
  | none => targets

/-- What the calls of names do. -/
def targets (t : Symbols) : HashMap String Target :=
  Builtin.table.foldl override (t.functions.map fun _ ip => .address ip)

/-- An instruction with what the tables have for its name. -/
def op (t : Symbols) (targets : HashMap String Target) : Instruction → Op
  | .pushInt n => .push (.int n)
  | .pushFloat x => .push (.float x)
  | .load name => .load name
  | .store name => .store name
  | .binary op => .binary op
  | .neg => .neg
  | .not => .not
  | .toFloat => .toFloat
  | .label _ | .func _ _ | .nop => .skip
  | .jump l => .jump t.labels[l]? l
  | .jumpIfFalse l => .jumpIfFalse t.labels[l]? l
  | .call name _ => .call (targets.getD name .unresolved) name
  | .ret => .ret
  | .retVoid | .fin => .retVoid

variable {name : String}

theorem getElem?_enter (places : HashMap String Nat) (ip : Nat) (name? : Option String)
    (name : String) :
    (enter places ip name?)[name]? = places[name]?.or (if name? = some name then some ip else none) := by
  cases name? with
  | none => simp [enter]
  | some name' =>
    rw [enter, HashMap.getElem?_insertIfNew]
    by_cases hname : name' = name
    · subst hname
      by_cases hmem : name' ∈ places <;> simp [hmem]
    · simp [hname]

theorem getElem?_read (t : Symbols) (ip : Nat) (code : Code) (name : String) :
    (t.read ip code).labels[name]? =
        t.labels[name]?.or (code.seek Instruction.label? name ip) ∧
      (t.read ip code).functions[name]? =
        t.functions[name]?.or (code.seek Instruction.head? name (ip + 1)) := by
  induction code generalizing t ip with
  | nil => simp [read, Code.seek]
  | cons i code ih =>
    obtain ⟨hlabels, hfunctions⟩ :=
      ih ⟨enter t.labels ip i.label?, enter t.functions (ip + 1) i.head?⟩ (ip + 1)
    rw [read, hlabels, hfunctions, getElem?_enter, getElem?_enter, Option.or_assoc, Option.or_assoc,
      Code.seek, Code.seek]
    constructor <;> split <;> simp

theorem find?_eq_none_of_notMem {bs : List Builtin} (h : name ∉ bs.map (·.name)) :
    bs.find? (·.name = name) = none := by
  rw [List.find?_eq_none]
  intro b hb hname
  exact h (List.mem_map.mpr ⟨b, hb, of_decide_eq_true hname⟩)

theorem getElem?_foldl_override {bs : List Builtin} (hbs : (bs.map (·.name)).Nodup)
    (targets : HashMap String Target) (name : String) :
    (bs.foldl override targets)[name]? =
      (((bs.find? (·.name = name)).bind (·.action)).map .action).or targets[name]? := by
  induction bs generalizing targets with
  | nil => rfl
  | cons b bs ih =>
    obtain ⟨hb, hbs⟩ := List.nodup_cons.mp hbs
    rw [List.foldl_cons, ih hbs]
    by_cases hname : b.name = name
    · -- No built-in behind it has the name, so nothing is put over its action.
      have hnone := find?_eq_none_of_notMem (by simpa only [hname] using hb)
      have hsome : (b :: bs).find? (·.name = name) = some b :=
        List.find?_cons_of_pos (decide_eq_true hname)
      rw [hnone, hsome]
      cases ha : b.action <;> simp [override, ha, hname]
    · have htail : (b :: bs).find? (·.name = name) = bs.find? (·.name = name) :=
        List.find?_cons_of_neg (by simpa using hname)
      rw [htail]
      cases ha : b.action <;> simp [override, ha, hname, HashMap.getElem?_insert]

theorem nodup_names : (Builtin.table.map (·.name)).Nodup := by decide

theorem getD_targets (t : Symbols) (name : String) :
    t.targets.getD name .unresolved =
      match (Builtin.find? name).bind (·.action) with
      | some a => .action a
      | none =>
        match t.functions[name]? with
        | some ip => .address ip
        | none => .unresolved := by
  rw [HashMap.getD_eq_getD_getElem?, targets, getElem?_foldl_override nodup_names,
    HashMap.getElem?_map, ← Builtin.find?]
  cases (Builtin.find? name).bind (·.action) with
  | some a => rfl
  | none => cases t.functions[name]? <;> rfl

end Symbols

namespace Code

/-- The tables of a code, from one pass over it. -/
def tables (code : Code) : Symbols :=
  Symbols.empty.read 0 code

/-- Linked code, by the tables. -/
def linkByTables (code : Code) : Array Op :=
  (code.map (code.tables.op code.tables.targets)).toArray

theorem labels_tables (code : Code) (name : String) :
    code.tables.labels[name]? = code.labelAddress? name := by
  rw [tables, (Symbols.getElem?_read _ _ _ _).1, seek_label?]
  simp [Symbols.empty]

theorem functions_tables (code : Code) (name : String) :
    code.tables.functions[name]? = code.entry? name := by
  rw [tables, (Symbols.getElem?_read _ _ _ _).2, seek_head?]
  simp [Symbols.empty]

theorem op_tables (code : Code) (i : Instruction) :
    code.tables.op code.tables.targets i = Op.ofInstruction code i := by
  cases i with
  | jump l => simp only [Symbols.op, Op.ofInstruction, labels_tables]
  | jumpIfFalse l => simp only [Symbols.op, Op.ofInstruction, labels_tables]
  | call name argc =>
    simp only [Symbols.op, Op.ofInstruction, Symbols.getD_targets, functions_tables]
    rfl
  | _ => rfl

theorem linkByTables_eq (code : Code) : code.linkByTables = code.link := by
  unfold linkByTables link
  congr 2
  funext i
  exact op_tables code i

end Code

/-! ### Names looked up when they are needed -/

/-- The action of the first built-in of a name that has one. -/
def Builtin.seekAction (name : String) : List Builtin → Option Action
  | [] => none
  | b :: bs => if b.name = name then b.action.or (seekAction name bs) else seekAction name bs

/-- A code that is run as it is written. -/
structure Interpreter where
  code : Code
  maxSteps : Nat
  maxStack : Nat

namespace Interpreter

/-- The machine without code, which puts values onto the stack and acts in the world. -/
def hardware (p : Interpreter) : Machine := ⟨#[], p.maxSteps, p.maxStack⟩

/-- Goes on at the first label of a name. -/
def goTo (p : Interpreter) (s : State) (label : String) : Except Fault State :=
  match p.code.seek Instruction.label? label 0 with
  | some ip => .ok { s with ip }
  | none => .error (.unresolvedLabel label)

/-- Calls a built-in that has an action, or else the first function of a name. -/
def call (p : Interpreter) (ip : Nat) (s : State) (name : String) : Except Fault State :=
  match Builtin.seekAction name Builtin.table with
  | some action => p.hardware.act ip s action
  | none =>
    match p.code.seek Instruction.head? name 0 with
    | some head =>
      if s.frames.size < p.maxStack then .ok { s with frames := s.frames.push s.ip, ip := head + 1 }
      else .error (.stackOverflow p.maxStack)
    | none => .error (.unresolvedCall name)

/-- Goes back to the last open call, or halts with a result if there is none. -/
def leave (s : State) (result : Option Value) : Next :=
  match s.frames.pop? with
  | some (ip, frames) => .state { s with ip, frames }
  | none => .halt result s

/-- Carries out the instruction at `ip`, behind which the state stands already. -/
def step (p : Interpreter) (ip : Nat) (s : State) : Instruction → Except Fault Next
  | .pushInt n => Next.state <$> p.hardware.push s (.int n)
  | .pushFloat x => Next.state <$> p.hardware.push s (.float x)
  | .load name =>
    match s.store.get? name with
    | some v => Next.state <$> p.hardware.push s v
    | none => .error (.undefinedVariable name)
  | .store name => do
    let (v, s) ← s.pop ip
    return .state { s with toWorld := s.assign name v }
  | .binary op => do
    let (b, s) ← s.pop ip
    let (a, s) ← s.pop ip
    match op.eval? a b with
    | some v => Next.state <$> p.hardware.push s v
    | none => throw (.divisionByZero ip)
  | .neg => do
    let (v, s) ← s.pop ip
    Next.state <$> p.hardware.push s v.neg
  | .not => do
    let (v, s) ← s.pop ip
    Next.state <$> p.hardware.push s v.not
  | .toFloat => do
    let (v, s) ← s.pop ip
    Next.state <$> p.hardware.push s (.float v.toFloat)
  | .label _ | .func _ _ | .nop => .ok (.state s)
  | .jump label => Next.state <$> p.goTo s label
  | .jumpIfFalse label => do
    let (v, s) ← s.pop ip
    if v.truthy then return .state s else Next.state <$> p.goTo s label
  | .call name _ => Next.state <$> p.call ip s name
  | .ret => .ok (leave s s.stack.top?)
  | .retVoid | .fin => .ok (leave s none)

/-- Goes on for at most `budget` steps, up to the result. -/
def runFrom (p : Interpreter) (budget : Nat) (s : State) : Except Fault (Option Value × State) :=
  match p.code[s.ip]?, budget with
  | none, _ => .ok (none, s)
  | some _, 0 => .error (.stepsExceeded p.maxSteps)
  | some i, budget + 1 =>
    match p.step s.ip { s with ip := s.ip + 1, steps := s.steps + 1 } i with
    | .error f => .error f
    | .ok (.halt v s) => .ok (v, s)
    | .ok (.state s) => runFrom p budget s

end Interpreter

/-- Runs a code as it is written. -/
def Code.runByName (code : Code) (maze : Maze) (settings : Settings) : Except Fault Outcome :=
  match code.seek Instruction.head? "main" 0 with
  | none => .error .missingMain
  | some head => do
    let agent ← Machine.startAgent maze settings
    let p : Interpreter :=
      { code, maxSteps := settings.maxSteps.toNat, maxStack := settings.maxStack.toNat }
    let (result, s) ← p.runFrom p.maxSteps
      { ip := head + 1, maze, agent, stack := .empty, frames := .empty, store := .empty,
        trace := #[agent], output := "", steps := 0 }
    return s.outcome result

/-! ### The same run -/

theorem Builtin.seekAction_eq {bs : List Builtin} (hbs : (bs.map (·.name)).Nodup) (name : String) :
    seekAction name bs = (bs.find? (·.name = name)).bind (·.action) := by
  induction bs with
  | nil => rfl
  | cons b bs ih =>
    obtain ⟨hb, hbs⟩ := List.nodup_cons.mp hbs
    rw [seekAction, ih hbs]
    by_cases hname : b.name = name
    · have hnone := Symbols.find?_eq_none_of_notMem (by simpa only [hname] using hb)
      simp [hname, hnone]
    · simp [hname]

namespace Interpreter

/-- A machine that has linked what the interpreter runs, with the same limits. -/
structure Fits (p : Interpreter) (m : Machine) : Prop where
  ops : m.ops = p.code.link
  steps : m.maxSteps = p.maxSteps
  room : m.maxStack = p.maxStack

namespace Fits

variable {p : Interpreter} {m : Machine}

theorem push (h : p.Fits m) (s : State) (v : Value) : p.hardware.push s v = m.push s v := by
  unfold Machine.push
  rw [h.room]
  rfl

theorem act (h : p.Fits m) (ip : Nat) (s : State) (action : Action) :
    p.hardware.act ip s action = m.act ip s action := by
  cases action <;> simp only [Machine.act, h.push]

theorem goTo (p : Interpreter) (s : State) (label : String) :
    p.goTo s label = Machine.jump s (p.code.labelAddress? label) label := by
  rw [Interpreter.goTo, Code.seek_label?]
  rfl

theorem call (h : p.Fits m) (ip : Nat) (s : State) (name : String) :
    Next.state <$> p.call ip s name = m.step ip s (.call (p.code.target name) name) := by
  rw [Interpreter.call, Builtin.seekAction_eq Symbols.nodup_names, ← Builtin.find?, Code.target]
  cases (Builtin.find? name).bind (·.action) with
  | some a =>
    dsimp only [Machine.step]
    rw [h.act]
  | none =>
    rw [← Code.map_seek_head?]
    cases p.code.seek Instruction.head? name 0 with
    | none => rfl
    | some head =>
      dsimp only [Machine.step, Option.map_some]
      rw [h.room]
      split <;> rfl

/-- An instruction as it is written does what its linked form does. -/
theorem step (h : p.Fits m) (ip : Nat) (s : State) (i : Instruction) :
    p.step ip s i = m.step ip s (Op.ofInstruction p.code i) := by
  cases i with
  | call name argc => exact h.call ip s name
  | jump label | jumpIfFalse label =>
    simp only [Interpreter.step, goTo, Op.ofInstruction, Machine.step]
  | pushInt _ | pushFloat _ | neg | not | toFloat =>
    simp only [Interpreter.step, h.push, Op.ofInstruction, Machine.step]
  | load name =>
    rw [Interpreter.step, Op.ofInstruction, Machine.step]
    cases s.store.get? name with
    | none => rfl
    | some v => exact congrArg (Next.state <$> ·) (h.push s v)
  | binary op =>
    refine bind_congr ?_
    rintro ⟨b, t⟩
    refine bind_congr ?_
    rintro ⟨a, u⟩
    dsimp only
    cases op.eval? a b with
    | none => rfl
    | some v => exact congrArg (Next.state <$> ·) (h.push u v)
  | ret | retVoid | fin | store _ | label _ | func _ _ | nop => rfl

theorem getElem?_ops (h : p.Fits m) (a : Nat) :
    m.ops[a]? = p.code[a]?.map (Op.ofInstruction p.code) := by
  rw [h.ops, Code.link, List.getElem?_toArray, List.getElem?_map]

theorem runFrom (h : p.Fits m) (k : Nat) (s : State) : p.runFrom k s = m.runFrom k s := by
  induction k generalizing s with
  | zero =>
    have hops := h.getElem?_ops s.ip
    have hrun := Interpreter.runFrom.eq_def p 0 s
    cases hi : p.code[s.ip]? with
    | none =>
      rw [hi] at hops hrun
      exact hrun.trans (Machine.runFrom_of_none hops 0).symm
    | some i =>
      rw [hi] at hops hrun
      rw [hrun, Machine.runFrom_zero hops, h.steps]
  | succ k ih =>
    have hops := h.getElem?_ops s.ip
    have hrun := Interpreter.runFrom.eq_def p (k + 1) s
    cases hi : p.code[s.ip]? with
    | none =>
      rw [hi] at hops hrun
      exact hrun.trans (Machine.runFrom_of_none hops (k + 1)).symm
    | some i =>
      rw [hi] at hops hrun
      rw [hrun, Machine.runFrom_succ hops, Machine.take, ← h.step]
      dsimp only
      cases p.step s.ip { s with ip := s.ip + 1, steps := s.steps + 1 } i with
      | error f => rfl
      | ok next =>
        cases next with
        | halt v t => rfl
        | state t => exact ih t

end Fits

end Interpreter

/-- Linked code is what one pass with tables makes of a code, and it runs as the code does when every name
is looked up at the time it is needed. -/
theorem Code.run_byName (code : Code) :
    (code.linkByTables = code.link ∧ ∀ name, code.tables.functions[name]? = code.entry? name) ∧
      ∀ maze settings, code.run maze settings = code.runByName maze settings := by
  refine ⟨⟨linkByTables_eq code, functions_tables code⟩, fun maze settings => ?_⟩
  rw [run, Machine.load, runByName, ← map_seek_head?]
  cases code.seek Instruction.head? "main" 0 with
  | none => rfl
  | some head =>
    dsimp only [Option.map_some]
    cases Machine.startAgent maze settings with
    | error f => rfl
    | ok agent =>
      have hfits : Interpreter.Fits
          { code, maxSteps := settings.maxSteps.toNat, maxStack := settings.maxStack.toNat }
          { ops := code.link, maxSteps := settings.maxSteps.toNat,
            maxStack := settings.maxStack.toNat } := ⟨rfl, rfl, rfl⟩
      dsimp only [bind, Except.bind, pure, Except.pure]
      rw [hfits.runFrom]

end Labyrinth
