import NexusVm.Gadget
import NexusVm.Numerals
import Mathlib.Data.ZMod.Basic

/-!
# The Mangrove leaf circuit

`nova/src/tree_folding/mangrove/circuit/mangrove_leaf.rs`.  A leaf runs a base circuit on its
allocated input and multiplies the terms of the permutation argument.  The computed output is
compared with the allocated one in its length only.
-/

namespace NexusVm.Mangrove

open Gadget

/-- Types that convert into a vector of field variables. -/
class IntoFpVarVec (F T : Type) where
  intoFpVarVec : T → List F

export IntoFpVarVec (intoFpVarVec)

/-- A vector of field variables. -/
instance {F : Type} : IntoFpVarVec F (List F) := ⟨id⟩

/-- A value of the permutation argument with its index and the next one. -/
structure Cell (R : Type) where
  value : R
  index : R
  nextIndex : R

section Products

variable {R : Type} [CommSemiring R]

/-- The loop of `compute_permutation_partial_products`: the numerator and the denominator. -/
def partialProducts (alpha beta : R) (cells : List (Cell R)) : R × R :=
  cells.foldl
    (fun acc c =>
      (acc.1 * (alpha * c.index + beta + c.value), acc.2 * (alpha * c.nextIndex + beta + c.value)))
    (1, 1)

/-- The cells of a vector of values. -/
def cellsOf (values indices nextIndices : List R) : List (Cell R) :=
  List.zipWith (fun v i => ⟨v, i.1, i.2⟩) values (indices.zip nextIndices)

theorem foldl_products (alpha beta : R) (cells : List (Cell R)) (acc : R × R) :
    cells.foldl
      (fun acc c =>
        (acc.1 * (alpha * c.index + beta + c.value),
          acc.2 * (alpha * c.nextIndex + beta + c.value)))
      acc =
      (acc.1 * (cells.map fun c => alpha * c.index + beta + c.value).prod,
        acc.2 * (cells.map fun c => alpha * c.nextIndex + beta + c.value).prod) := by
  induction cells generalizing acc with
  | nil => simp
  | cons c cells ih =>
      rw [List.foldl_cons, ih]
      simp only [List.map_cons, List.prod_cons, mul_assoc]

/-- The loop computes two products. -/
theorem partialProducts_eq (alpha beta : R) (cells : List (Cell R)) :
    partialProducts alpha beta cells =
      ((cells.map fun c => alpha * c.index + beta + c.value).prod,
        (cells.map fun c => alpha * c.nextIndex + beta + c.value).prod) := by
  rw [partialProducts, foldl_products, one_mul, one_mul]

end Products

structure PermutationPartialProductsVar (F : Type) where
  numerator : F
  denominator : F

/-- `MangroveLeafVar`: the values of the allocated variables. -/
structure MangroveLeafVar (F Input Output : Type) where
  alpha : F
  beta : F
  input : Input
  permutationInputIndex : List F
  permutationInputNextIndex : List F
  output : Output
  permutationOutputIndex : List F
  permutationOutputNextIndex : List F

section Circuit

variable {F Input Output T : Type} [CommRing F] [IntoFpVarVec F T] [IntoFpVarVec F Input]
  [IntoFpVarVec F Output]

/-- `compute_permutation_partial_products`; lengths that differ are an error. -/
def computePermutationPartialProducts (values : T) (indices nextIndices : List F)
    (alpha beta : F) : Gadget (PermutationPartialProductsVar F) := do
  let valueVars : List F := intoFpVarVec values
  enforce (valueVars.length = indices.length ∧ valueVars.length = nextIndices.length)
  let products := partialProducts alpha beta (cellsOf valueVars indices nextIndices)
  return ⟨products.1, products.2⟩

/-- `MangroveLeafCircuit::generate_constraints`. -/
def generateConstraints (baseCircuit : Input → Gadget Output)
    (mangroveVar : MangroveLeafVar F Input Output) :
    Gadget (PermutationPartialProductsVar F) := do
  let computedOutput ← baseCircuit mangroveVar.input
  let computedOutputVars : List F := intoFpVarVec computedOutput
  let expectedOutputVars : List F := intoFpVarVec mangroveVar.output
  -- the only comparison: vectors of different lengths are an error
  enforce (computedOutputVars.length = expectedOutputVars.length)
  let inputProducts ← computePermutationPartialProducts mangroveVar.input
    mangroveVar.permutationInputIndex mangroveVar.permutationInputNextIndex mangroveVar.alpha
    mangroveVar.beta
  let outputProducts ← computePermutationPartialProducts mangroveVar.output
    mangroveVar.permutationOutputIndex mangroveVar.permutationOutputNextIndex mangroveVar.alpha
    mangroveVar.beta
  return ⟨inputProducts.numerator * outputProducts.numerator,
    inputProducts.denominator * outputProducts.denominator⟩

/-- The cells of the allocated input and output. -/
def MangroveLeafVar.cells (m : MangroveLeafVar F Input Output) : List (Cell F) :=
  cellsOf (intoFpVarVec m.input) m.permutationInputIndex m.permutationInputNextIndex ++
    cellsOf (intoFpVarVec m.output) m.permutationOutputIndex m.permutationOutputNextIndex

/-- There is an index and a next index for each value. -/
def MangroveLeafVar.Indexed (m : MangroveLeafVar F Input Output) : Prop :=
  ((intoFpVarVec m.input : List F).length = m.permutationInputIndex.length ∧
    (intoFpVarVec m.input : List F).length = m.permutationInputNextIndex.length) ∧
  (intoFpVarVec m.output : List F).length = m.permutationOutputIndex.length ∧
    (intoFpVarVec m.output : List F).length = m.permutationOutputNextIndex.length

variable {out : PermutationPartialProductsVar F}

omit [IntoFpVarVec F Input] [IntoFpVarVec F Output] in
theorem computePermutationPartialProducts_iff {values : T} {indices nextIndices : List F}
    {alpha beta : F} :
    computePermutationPartialProducts values indices nextIndices alpha beta out ↔
      ((intoFpVarVec values : List F).length = indices.length ∧
        (intoFpVarVec values : List F).length = nextIndices.length) ∧
      out = ⟨(partialProducts alpha beta (cellsOf (intoFpVarVec values) indices nextIndices)).1,
        (partialProducts alpha beta (cellsOf (intoFpVarVec values) indices nextIndices)).2⟩ := by
  simp only [computePermutationPartialProducts, bind_iff, enforce_iff, pure_iff, exists_const]

variable {baseCircuit : Input → Gadget Output}

/-- **All that a leaf enforces**: the base circuit, and the lengths. -/
theorem generateConstraints_iff {m : MangroveLeafVar F Input Output} :
    generateConstraints baseCircuit m out ↔
      (∃ y, baseCircuit m.input y ∧
        (intoFpVarVec y : List F).length = (intoFpVarVec m.output : List F).length) ∧
      m.Indexed ∧
      out = ⟨(partialProducts m.alpha m.beta m.cells).1,
        (partialProducts m.alpha m.beta m.cells).2⟩ := by
  have hcells : partialProducts m.alpha m.beta m.cells = _ := partialProducts_eq _ _ _
  simp only [generateConstraints, bind_iff, enforce_iff, pure_iff,
    computePermutationPartialProducts_iff, partialProducts_eq, exists_const,
    MangroveLeafVar.cells, MangroveLeafVar.Indexed, List.map_append, List.prod_append]
  constructor
  · rintro ⟨y, hy, hlen, _, ⟨hin, rfl⟩, _, ⟨hout, rfl⟩, rfl⟩
    exact ⟨⟨y, hy, hlen⟩, ⟨hin, hout⟩, rfl⟩
  · rintro ⟨⟨y, hy, hlen⟩, ⟨hin, hout⟩, rfl⟩
    exact ⟨y, hy, hlen, _, ⟨hin, rfl⟩, _, ⟨hout, rfl⟩, rfl⟩

/-! ## Soundness and a leaf over the field of five elements -/

/-- In every satisfying assignment the allocated output is `f` of the allocated input, and the
products run over the cells of both. -/
def LeafSound (baseCircuit : Input → Gadget Output) (f : Input → List F) : Prop :=
  ∀ (m : MangroveLeafVar F Input Output) (out : PermutationPartialProductsVar F),
    generateConstraints baseCircuit m out →
      intoFpVarVec m.output = f m.input ∧
      out.numerator = (m.cells.map fun c => m.alpha * c.index + m.beta + c.value).prod ∧
      out.denominator = (m.cells.map fun c => m.alpha * c.nextIndex + m.beta + c.value).prod

/-- A leaf variable without challenges and with all indices zero. -/
def bareLeaf (input : Input) (output : Output) : MangroveLeafVar F Input Output where
  alpha := 0
  beta := 0
  input := input
  permutationInputIndex := List.replicate (intoFpVarVec input : List F).length 0
  permutationInputNextIndex := List.replicate (intoFpVarVec input : List F).length 0
  output := output
  permutationOutputIndex := List.replicate (intoFpVarVec output : List F).length 0
  permutationOutputNextIndex := List.replicate (intoFpVarVec output : List F).length 0

/-- Any output of the right length is accepted. -/
theorem bareLeaf_accepted {x : Input} {y y' : Output} (hy : baseCircuit x y)
    (hlen : (intoFpVarVec y : List F).length = (intoFpVarVec y' : List F).length) :
    ∃ out : PermutationPartialProductsVar F,
      generateConstraints baseCircuit (bareLeaf x y') out := by
  refine ⟨_, generateConstraints_iff.mpr ⟨⟨y, hy, hlen⟩, ?_, rfl⟩⟩
  constructor
  · exact ⟨List.length_replicate.symm, List.length_replicate.symm⟩
  · exact ⟨List.length_replicate.symm, List.length_replicate.symm⟩

/-- **Leaf soundness** holds exactly if `f(input)` is the only output of its length, wherever the
base circuit has an assignment. -/
theorem leaf_sound_iff {f : Input → List F} (hbase : ∀ x y, baseCircuit x y → intoFpVarVec y = f x) :
    LeafSound baseCircuit f ↔
      ∀ x, (baseCircuit x).Satisfiable → ∀ y : Output,
        (intoFpVarVec y : List F).length = (f x).length → intoFpVarVec y = f x := by
  constructor
  · intro hsound x hsat y hlen
    obtain ⟨y₀, hy₀⟩ := hsat
    have hlen₀ : (intoFpVarVec y₀ : List F).length = (intoFpVarVec y : List F).length := by
      rw [hbase x y₀ hy₀, hlen]
    obtain ⟨out, hout⟩ := bareLeaf_accepted hy₀ hlen₀
    exact (hsound _ out hout).1
  · intro honly m out hout
    obtain ⟨⟨y, hy, hlen⟩, -, rfl⟩ := generateConstraints_iff.mp hout
    rw [hbase _ y hy] at hlen
    constructor
    · exact honly m.input ⟨y, hy⟩ m.output hlen.symm
    · rw [partialProducts_eq]
      exact ⟨rfl, rfl⟩

end Circuit

/-- A base circuit that returns the successor of its input. -/
def successor (x : List (ZMod 5)) : Gadget (List (ZMod 5)) := pure (x.map (· + 1))

/-- The successor has other outputs of its length. -/
theorem leaf_sound_iff_successor :
    LeafSound successor (fun x : List (ZMod 5) => x.map (· + 1)) ↔
      ∀ x, (successor x).Satisfiable → ∀ y : List (ZMod 5),
        (intoFpVarVec y : List (ZMod 5)).length = (x.map (· + 1)).length →
          intoFpVarVec y = x.map (· + 1) :=
  leaf_sound_iff fun _ _ h => h

/-- **A forged output**: `3` is accepted as the successor of `0`. -/
theorem successor_forged :
    (∀ x y, successor x y → (intoFpVarVec y : List (ZMod 5)) = x.map (· + 1)) ∧
      ∃ (m : MangroveLeafVar (ZMod 5) (List (ZMod 5)) (List (ZMod 5)))
        (out : PermutationPartialProductsVar (ZMod 5)),
        generateConstraints successor m out ∧ m.input = [0] ∧ m.output = [3] := by
  have hy : successor [0] [1] := rfl
  obtain ⟨out, hout⟩ : ∃ out : PermutationPartialProductsVar (ZMod 5),
      generateConstraints successor (bareLeaf [0] [3]) out := bareLeaf_accepted hy rfl
  exact ⟨fun _ _ h => h, bareLeaf [0] [3], out, hout, rfl, rfl⟩

end NexusVm.Mangrove
