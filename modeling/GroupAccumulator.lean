import GroupAccumulator.Theory.BinaryForm
import GroupAccumulator.Theory.FormReduction
import GroupAccumulator.Theory.FormDescent
import GroupAccumulator.Theory.GoldenStrip
import GroupAccumulator.Theory.FormZeros
import GroupAccumulator.Theory.IdealSimilarity
import GroupAccumulator.Theory.QuadraticOrder
import GroupAccumulator.Theory.FormComposition
import GroupAccumulator.Theory.FormFactors
import GroupAccumulator.Theory.CoprimeProducts
import GroupAccumulator.Theory.Halves
import GroupAccumulator.Theory.Bracketing
import GroupAccumulator.Theory.JointRoots
import GroupAccumulator.Theory.CofactorPowers
import GroupAccumulator.Theory.PowerPairs
import GroupAccumulator.Theory.UnitsUpToSign
import GroupAccumulator.Theory.CanonicalGroup
import GroupAccumulator.Theory.LucasSequence
import GroupAccumulator.Theory.Limbs
import GroupAccumulator.Theory.Fueled
import GroupAccumulator.Theory.FirstHit
import GroupAccumulator.Outcome
import GroupAccumulator.Rug
import GroupAccumulator.Hash
import GroupAccumulator.Group
import GroupAccumulator.GroupDefaults
import GroupAccumulator.Util
import GroupAccumulator.DivideAndConquer
import GroupAccumulator.Rsa2048
import GroupAccumulator.Rsa2048Group
import GroupAccumulator.Ristretto
import GroupAccumulator.ClassGroup
import GroupAccumulator.ClassReduction
import GroupAccumulator.ClassReductionSpeed
import GroupAccumulator.ClassTermination
import GroupAccumulator.ClassComposition
import GroupAccumulator.ClassGroupLaws
import GroupAccumulator.ClassInvariant
import GroupAccumulator.ClassExponent
import GroupAccumulator.LawfulGroups
import GroupAccumulator.Gmp
import GroupAccumulator.Uint
import GroupAccumulator.UintValue
import GroupAccumulator.UintInvariant
import GroupAccumulator.UintDivision
import GroupAccumulator.UintShift
import GroupAccumulator.UintArithmetic
import GroupAccumulator.Primality
import GroupAccumulator.PrimalityLucas
import GroupAccumulator.PrimalityMillerRabin
import GroupAccumulator.PrimalitySafety
import GroupAccumulator.PrimalityComplete
import GroupAccumulator.PrimalityExact
import GroupAccumulator.HashToPrime
import GroupAccumulator.Proof
import GroupAccumulator.Pokcr
import GroupAccumulator.Accumulator
import GroupAccumulator.AccumulatorDelete
import GroupAccumulator.AccumulatorRuns
import GroupAccumulator.Membership
import GroupAccumulator.WitnessUpdate
import GroupAccumulator.WitnessSplit
import GroupAccumulator.WitnessSubset
import GroupAccumulator.WitnessCatchUp
import GroupAccumulator.HalvingTermination
import GroupAccumulator.Nonmembership
import GroupAccumulator.Holdings
import GroupAccumulator.StressTest
import GroupAccumulator.VectorCommitment
import GroupAccumulator.VectorCommitmentUpdate
import GroupAccumulator.VectorCommitmentOpen
import GroupAccumulator.VectorCommitmentRuns
import GroupAccumulator.VectorCommitmentLog
import GroupAccumulator.Binding
