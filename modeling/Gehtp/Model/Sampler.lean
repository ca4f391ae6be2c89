import Mathlib.Algebra.Order.Field.Rat
import Mathlib.Data.List.Dedup
import Mathlib.Data.List.Sort

/-!
# The sampler

`scripts/sampler.py`, lines 43-103: a distribution is cut to its most probable tokens, and a token is
drawn from it. Probabilities are exact rationals. In which order Python goes through a set is not
part of the language, so it is a parameter: some list of the elements, which may depend on the order
in which they were put in.
-/

set_option autoImplicit false

namespace Gehtp.Model.Sampler

/-- An order of iteration for the sets made from the elements of a list. -/
structure SetOrder where
  iterate : List ℕ → List ℕ
  perm : ∀ l, (iterate l).Perm l.dedup

/-- The probabilities with their tokens, the greatest first, cut to `top_k`; the sort is stable.
SOURCE: sampler.py:53-57 -/
def candidates (probs : List ℚ) (topK : ℕ) : List (ℚ × ℕ) :=
  let indexed := probs.zipIdx.insertionSort fun a b => b.1 ≤ a.1
  if 0 < topK then indexed.take topK else indexed

/-- How many candidates there are until their sum reaches `top_p`, all if it does not.
SOURCE: sampler.py:59-65 -/
def cutoffIdx (topP : ℚ) : ℚ → List (ℚ × ℕ) → ℕ
  | _, [] => 0
  | cumulative, e :: l =>
    if topP ≤ cumulative + e.1 then 1 else cutoffIdx topP (cumulative + e.1) l + 1

def kept (probs : List ℚ) (topP : ℚ) (topK : ℕ) : List (ℚ × ℕ) :=
  (candidates probs topK).take (cutoffIdx topP 0 (candidates probs topK))

/-- The tokens that are kept, in the order of the set. SOURCE: sampler.py:67 -/
def allowed (order : SetOrder) (probs : List ℚ) (topP : ℚ) (topK : ℕ) : List ℕ :=
  order.iterate ((kept probs topP topK).map Prod.snd)

/-- Give the tokens their probabilities, in the order of both lists. SOURCE: sampler.py:69-71 -/
def fill (vocabSize : ℕ) (tokens : List ℕ) (ps : List ℚ) : List ℚ :=
  (tokens.zip ps).foldl (fun filtered e => filtered.set e.1 e.2) (List.replicate vocabSize 0)

/-- SOURCE: sampler.py:73-76 -/
def normalise (filtered : List ℚ) : List ℚ :=
  if 0 < filtered.sum then filtered.map (· / filtered.sum) else filtered

/-- SOURCE: sampler.py:43-76 -/
def topKTopPFiltering (order : SetOrder) (probs : List ℚ) (topP : ℚ) (topK : ℕ) : List ℚ :=
  if topK = 0 ∧ 1 ≤ topP then probs
  else normalise (fill probs.length (allowed order probs topP topK)
    ((kept probs topP topK).map Prod.fst))

/-- SOURCE: sampler.py:97-101 -/
def sampleLoop (r : ℚ) : ℚ → ℕ → List ℚ → Option (ℕ × ℚ)
  | _, _, [] => none
  | cumulative, i, p :: probs =>
    if r ≤ cumulative + p then some (i, p) else sampleLoop r (cumulative + p) (i + 1) probs

/-- Draw a token from a distribution that is not empty. SOURCE: sampler.py:97-103 -/
def sampleProbs (probs : List ℚ) (r : ℚ) : ℕ × ℚ :=
  (sampleLoop r 0 0 probs).getD (probs.length - 1, probs.getLast?.getD 0)

end Gehtp.Model.Sampler
