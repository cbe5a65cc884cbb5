/-!
What the sums over derivations need of their weights. Weights are doubles when the library runs;
the same definitions read with rationals give the exact values.
-/

namespace StochasticGrammar

class Weight (W : Type) extends Zero W, One W, Add W, Mul W, BEq W, LT W where
  decidableLT : DecidableLT W

attribute [reducible, instance] Weight.decidableLT

instance : Weight Float where
  zero := 0.0
  one := 1.0
  decidableLT := inferInstance

instance : Weight Rat where
  zero := 0
  one := 1
  decidableLT := inferInstance

end StochasticGrammar
