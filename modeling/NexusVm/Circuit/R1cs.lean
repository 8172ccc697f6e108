import NexusVm.Circuit.Var
import NexusVm.Rv32.Inst
import NexusVm.Numerals

/-!
# Gadgets over the builder

The methods of `R1CS` in `vm/src/circuit/r1cs.rs` and its selector gadgets, as
lists of builder calls.  Gadgets that return early under `witness_only` take
that flag; those that only push rows do not, since `constraint` itself tests it.
-/

namespace NexusVm.Circuit

open NexusVm.Builder

section Gadgets

variable {F : Type} [Field F]

/-- Terms of `pow, 2 * pow, 4 * pow, …` on successive names. -/
def powRow (pow : F) : List Var → List (Term Var F)
  | [] => []
  | n :: ns => .put n pow :: powRow (pow * 2) ns

/-- The names `{v}_{start}, …` of `count` bits. -/
def bitNames (v : Var) (start count : ℕ) : List Var := (List.range' start count).map (.bit v)

def setFieldVar (n : Var) (val : F) : List (Op Var F) := [.newVar n, .set n [] fun _ => val]

def setVar (n : Var) (val : U32) : List (Op Var F) := setFieldVar n (val.toNat : F)

/-- A local variable that is assigned at once. -/
def setLocalVar (n : Var) (reads : List Var) (f : (Var → F) → F) : List (Op Var F) :=
  [.newLocalVar n, .set n reads f]

def setEq (n v : Var) : List (Op Var F) :=
  [.newVar n, .set n [v] fun σ => σ v, .constraint [.put v 1] [.const 1] [.put n 1]]

/-- `set_bit` with a value that is computed from current values. -/
def setBitFrom (n : Var) (reads : List Var) (val : (Var → F) → Bool) : List (Op Var F) :=
  [.newVar n, .set n reads fun σ => if val σ then 1 else 0,
    .constraint [.const (-1), .put n 1] [.put n 1] []]

def setBit (n : Var) (val : Bool) : List (Op Var F) := setBitFrom n [] fun _ => val

def toBits (n : Var) (val : U32) : List (Op Var F) :=
  setVar n val ++ (List.range 32).flatMap (fun i => setBit (.bit n i) (val.getLsbD i)) ++
    [.constraint ((List.range 32).map fun i => .put (.bit n i) ((2 ^ i : ℕ) : F)) [.const 1]
      [.put n 1]]

def eqi (v0 : Var) (x : F) : Op Var F := .constraint [.put v0 1] [.const 1] [.const x]

def add (v0 v1 v2 : Var) : Op Var F :=
  .constraint [.put v1 1, .put v2 1] [.const 1] [.put v0 1]

def addi (v0 v1 : Var) (x : F) : Op Var F :=
  .constraint [.const x, .put v1 1] [.const 1] [.put v0 1]

def mul (v0 v1 v2 : Var) : Op Var F := .constraint [.put v1 1] [.put v2 1] [.put v0 1]

def muli (v0 v1 : Var) (x : F) : Op Var F := .constraint [.const x] [.put v1 1] [.put v0 1]

/-- At least one of the variables is zero. -/
def nand (v0 v1 : Var) : Op Var F := .constraint [.put v0 1] [.put v1 1] []

/-- A sum of names: `output = Σ names`. -/
def sumRow (output : Var) (names : List Var) : Op Var F :=
  .constraint (names.map fun n => .put n 1) [.const 1] [.put output 1]

/-- `(x - s0)(x - s1)…(x - s{n-1}) / (x - sk)` at the point `sk`. -/
def memberC (set : List ℕ) (k : ℕ) : F :=
  ((set.filter (· ≠ k)).map fun x : ℕ => (k : F) - (x : F)).prod

/-- `(x - s0)(x - s1)…(x - si)`. -/
def leftProd (set : List ℕ) (x : F) (i : ℕ) : F :=
  ((set.take (i + 1)).map fun s : ℕ => x - (s : F)).prod

/-- `(x - si)…(x - s{n-1})`. -/
def rightProd (set : List ℕ) (x : F) (i : ℕ) : F :=
  ((set.drop i).map fun s : ℕ => x - (s : F)).prod

/-- Witness of `member` for element `i` of `set`. -/
def memberWitness (name : Var) (k : ℕ) (set : List ℕ) (i : ℕ) : List (Op Var F) :=
  let s := set.getD i 0
  let i2 := set.length - 1 - i
  setLocalVar (.xk i) [] (fun _ => (k : F) - (s : F)) ++
    setLocalVar (.l i) [] (fun _ => leftProd set (k : F) i) ++
    setLocalVar (.r i2) [] (fun _ => rightProd set (k : F) i2) ++
    setLocalVar (.cx i) [] (fun _ => if s = k then memberC set s else 0) ++
    setFieldVar (.is name s) (if s = k then 1 else 0)

/-- Rows of `member` for element `i` of `set`. -/
def memberRows (name : Var) (set : List ℕ) (i : ℕ) : List (Op Var F) :=
  let s := set.getD i 0
  let n := set.length
  [addi (.xk i) name (0 - (s : F)),
    if i = 0 then muli (.l 0) (.xk 0) 1 else mul (.l i) (.l (i - 1)) (.xk i),
    if i = n - 1 then muli (.r i) (.xk i) 1 else mul (.r i) (.xk i) (.r (i + 1)),
    if i = 0 then muli (.cx 0) (.r 1) 1
    else if i = n - 1 then muli (.cx i) (.l (i - 1)) 1
    else mul (.cx i) (.l (i - 1)) (.r (i + 1)),
    muli (.is name s) (.cx i) (1 / memberC set s)]

/-- `member` up to its seal.  The debug assertions on `set` are facts about the
call sites, where `set` is a constant; `k` is in `set` as it is checked here. -/
def memberBody (wo : Bool) (name : Var) (k : ℕ) (set : List ℕ) : List (Op Var F) :=
  [.check [] fun _ => set.contains k] ++ setFieldVar name (k : F) ++
    (List.range set.length).flatMap (memberWitness name k set) ++
    if wo then []
    else [eqi (.r 0) 0, eqi (.l (set.length - 1)) 0] ++
      (List.range set.length).flatMap (memberRows name set)

def member (wo : Bool) (name : Var) (k : ℕ) (set : List ℕ) : List (Op Var F) :=
  memberBody wo name k set ++ [Op.sealLocals]

/-- Selectors for an integer `k` with `0 <= k < n`. -/
def selector (wo : Bool) (name : Var) (n k : ℕ) : List (Op Var F) :=
  .check [] (fun _ => decide (2 < n) && decide (k < n)) :: member wo name k (List.range n)

/-- `load_array` after its selector, up to its seal.  The value of `output` is
that of `arr{rs}`, which is among the names read because `rs < size`. -/
def loadArrayBody (wo : Bool) (input output : Var) (arr : ℕ → Var) (size rs : ℕ) :
    List (Op Var F) :=
  setFieldVar input (rs : F) ++
    (List.range size).flatMap (fun i =>
      setLocalVar (.rsx i) [arr i] fun σ => if i = rs then σ (arr i) else 0) ++
    ([.newVar output, .set output ((List.range size).map arr) fun σ => σ (arr rs)] :
      List (Op Var F)) ++
    if wo then []
    else (List.range size).map (fun i => mul (.rsx i) (.is input i) (arr i)) ++
      [sumRow output ((List.range size).map .rsx)]

def loadArray (wo : Bool) (input output : Var) (arr : ℕ → Var) (size rs : ℕ) :
    List (Op Var F) :=
  selector wo input size rs ++ loadArrayBody wo input output arr size rs ++ [Op.sealLocals]

def loadReg (wo : Bool) (input output : Var) (rs : ℕ) : List (Op Var F) :=
  loadArray wo input output .x 32 rs

/-- `store_reg` after its selector, up to its seal.  No row is about `x'0`. -/
def storeRegBody (wo : Bool) (input output : Var) (rs : ℕ) : List (Op Var F) :=
  setFieldVar input (rs : F) ++
    ([.newVar (.x' 0), .newLocalVar (.rsx 0), .newLocalVar (.z 0)] : List (Op Var F)) ++
    (List.range' 1 31).flatMap (fun i =>
      ([.newVar (.x' i),
        .set (.x' i) [.x i, output] fun σ => if i = rs then σ output else σ (.x i)] :
        List (Op Var F)) ++
      setLocalVar (.rsx i) [.x i] (fun σ => if i ≠ rs then σ (.x i) else 0) ++
      setLocalVar (.z i) [output] fun σ => if i = rs then σ output else 0) ++
    if wo then []
    else (List.range' 1 31).flatMap fun i =>
      [.constraint [.const 1, .put (.is input i) (-1)] [.put (.x i) 1] [.put (.rsx i) 1],
        mul (.z i) (.is input i) output,
        add (.x' i) (.rsx i) (.z i)]

def storeReg (wo : Bool) (input output : Var) (rs : ℕ) : List (Op Var F) :=
  selector wo input 32 rs ++ storeRegBody wo input output rs ++ [Op.sealLocals]

end Gadgets

end NexusVm.Circuit
