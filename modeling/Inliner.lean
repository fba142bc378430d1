import Inliner.Domain
import Inliner.FixedPoint
import Inliner.Access
import Inliner.Packed
import Inliner.SlotSet
import Inliner.Frame
import Inliner.PointsTo
import Inliner.Effects
import Inliner.KeyMap
import Inliner.Reference
import Inliner.Term.Basic
import Inliner.Listing
import Inliner.Term.Listing
import Inliner.Fault
import Inliner.VarTable
import Inliner.Count
import Inliner.Usage
import Inliner.Term.Usage
import Inliner.Term.Effects
import Inliner.MethodBody
import Inliner.Arena
import Inliner.Event
import Inliner.Policy
import Inliner.ArgumentTracker
import Inliner.Scope
import Inliner.Substitution
import Inliner.Pass.Terms
import Inliner.Pass.Calls
import Inliner.Simplify
import Inliner.Library
import Inliner.Proofs.Commutation
import Inliner.Proofs.Evaluation
import Inliner.Proofs.EffectOrder
import Inliner.Proofs.Replacement
import Inliner.Proofs.SoundEvaluation
import Inliner.Proofs.SubstitutionWalk
import Inliner.Proofs.ArgumentMovement
import Inliner.Proofs.Slots
import Inliner.Proofs.ExpressionInlining
import Inliner.Proofs.Scoping
import Inliner.Proofs.MapEntries
import Inliner.Proofs.Machine
import Inliner.Proofs.MachineStore
import Inliner.Proofs.Emission
import Inliner.Proofs.Translation
import Inliner.Proofs.Simulation
import Inliner.Proofs.InlinedFrame
import Inliner.Proofs.Splicing
import Inliner.Proofs.Preservation
import Inliner.Proofs.PointerRuns
import Inliner.Proofs.PointerSoundness
import Inliner.Proofs.LegalOccurrences
import Inliner.Proofs.LinkChains
import Inliner.Proofs.LogicClasses
import Inliner.Proofs.Logging
import Inliner.Proofs.ProcessingOrder
import Inliner.Proofs.WellNamed
import Inliner.Proofs.WellFormed
import Inliner.Proofs.UsageEntries
import Inliner.Proofs.Routes
import Inliner.Proofs.UsageCounts
import Inliner.Proofs.SlotSets
import Inliner.Proofs.DomainLaws
import Inliner.Proofs.StoredUsage
import Inliner.Proofs.LeastSolutions
import Inliner.Proofs.Walkers
import Inliner.Proofs.WalkRules
import Inliner.Proofs.CallStack
import Inliner.Proofs.UntouchedScopes
import Inliner.Proofs.Disciplines
import Inliner.Proofs.InliningRules
import Inliner.Proofs.CallerVariables
import Inliner.Proofs.Accumulation
import Inliner.Proofs.Dereference
import Inliner.Proofs.CheckedReads
import Inliner.Proofs.RefusedUnification
import Inliner.Proofs.UndeclaredVariables
import Inliner.Proofs.JoinedEffects
import Inliner.Proofs.UsageComposition
import Inliner.Proofs.UsageOwners
import Inliner.Proofs.EnumerationOrder
import Inliner.Proofs.SharedFlag
import Inliner.Proofs.FaultKinds
import Inliner.Proofs.NormalForms
import Inliner.Proofs.ReadFlags
import Inliner.Proofs.TargetEffects
import Inliner.Proofs.FiniteSets
import Inliner.Proofs.Mentions
import Inliner.Proofs.MentionRules
import Inliner.Proofs.Dependencies
import Inliner.Proofs.DerivedFlags
import Inliner.Proofs.TableGrowth
