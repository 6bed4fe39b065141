import LazyVectors.Session
import LazyVectors.Settings.Reading
import LazyVectors.Value.Equality
import LazyVectors.Proofs.ReadBack
import LazyVectors.Proofs.ShapeInvariant
import LazyVectors.Proofs.PathReadBack
import LazyVectors.Proofs.GrownAttributes
import LazyVectors.Proofs.MissingArguments
import LazyVectors.Proofs.Members
import LazyVectors.Proofs.Setters
import LazyVectors.Proofs.LocalAssignments
import LazyVectors.Proofs.WalkEnds
import LazyVectors.Proofs.Untouched
import LazyVectors.Proofs.Operations
import LazyVectors.Proofs.Refusals
import LazyVectors.Proofs.LinearPlaces
import LazyVectors.Proofs.ArrayParts
import LazyVectors.Proofs.HeldFrames
import LazyVectors.Proofs.IntegerCasts
import LazyVectors.Proofs.NumberTexts
import LazyVectors.Proofs.WideningCasts
import LazyVectors.Proofs.InPlace
import LazyVectors.Proofs.SingleReads
import LazyVectors.Proofs.DeletedPlaces
import LazyVectors.Proofs.WriteBack
import LazyVectors.Proofs.Fields
import LazyVectors.Proofs.Masks
import LazyVectors.Proofs.ComposedSubsets
import LazyVectors.Proofs.Resolver
import LazyVectors.Proofs.RecentPlans
import LazyVectors.Proofs.HandedArguments
import LazyVectors.Proofs.CircularDefaults
import LazyVectors.Proofs.ExpectedFailures
import LazyVectors.Proofs.ArgumentMatching
import LazyVectors.Proofs.NumberNotations
import LazyVectors.Proofs.WholeTexts
import LazyVectors.Proofs.ForeignWrites
import LazyVectors.Proofs.AttributeReadBack
import LazyVectors.Proofs.SinglePlaces
import LazyVectors.Proofs.Equivalence
import LazyVectors.Proofs.SettingsText
