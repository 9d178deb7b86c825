import SymbolicXor.Adversary.Syntactic
import SymbolicXor.Adversary.Unify
import SymbolicXor.Collision.Solve
import SymbolicXor.Rule.Basic
import SymbolicXor.Term.Application
import SymbolicXor.Proofs.AllowedValues
import SymbolicXor.Proofs.CompleteSearch
import SymbolicXor.Proofs.FoundUnifiers
import SymbolicXor.Proofs.WellSorted
import SymbolicXor.Proofs.WrittenExpressions
import SymbolicXor.Proofs.DefinitiveFailure
import SymbolicXor.Proofs.SecureOutputs
import SymbolicXor.Proofs.SpecializedUnifiers
import SymbolicXor.Proofs.SortedSolutions
import SymbolicXor.Proofs.FollowedDecisions
import SymbolicXor.Proofs.OverlookedAttacks
import SymbolicXor.Proofs.ReachableSubstitutions
import SymbolicXor.Proofs.HonestBudgets
import SymbolicXor.Proofs.RuleInstances
import SymbolicXor.Proofs.ConservativePurification
import SymbolicXor.Proofs.FiniteSearches
import SymbolicXor.Proofs.SolvedAttacks
import SymbolicXor.Proofs.SolvedForms
import SymbolicXor.Proofs.FiniteRounds
import SymbolicXor.Proofs.FiniteSaturations
import SymbolicXor.Proofs.IllSortedBindings
import SymbolicXor.Proofs.SumFreeSubproblems
import SymbolicXor.Proofs.SuccessiveSubstitutions
import SymbolicXor.Proofs.ThawedTerms
import SymbolicXor.Proofs.SyntacticMatches
import SymbolicXor.Proofs.HygienicRules
import SymbolicXor.Proofs.NormalForms
import SymbolicXor.Proofs.DepthBounds
import SymbolicXor.Proofs.RealCollisions
import SymbolicXor.Proofs.ConvertedTerms
import SymbolicXor.Proofs.Replacements
import SymbolicXor.Proofs.Presentations
import SymbolicXor.Proofs.ApplicablePositions
import SymbolicXor.Proofs.ExchangedSides
import SymbolicXor.Proofs.HandedOutNames
import SymbolicXor.Proofs.WrittenPositions
import SymbolicXor.Proofs.ComposedAssignments
import SymbolicXor.Proofs.SortForest
