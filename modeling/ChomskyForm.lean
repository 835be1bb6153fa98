import ChomskyForm.Grammar.WellFormed
import ChomskyForm.Json.Naming
import ChomskyForm.Main
import ChomskyForm.Recognition.Earley
import ChomskyForm.Recognition.Table
import ChomskyForm.Stage.Attainable
import ChomskyForm.Proofs.Analyses
import ChomskyForm.Proofs.EmptyAlternatives
import ChomskyForm.Proofs.Pruning
import ChomskyForm.Proofs.UnitAlternatives
import ChomskyForm.Proofs.Freshness
import ChomskyForm.Proofs.Expansion
import ChomskyForm.Proofs.Folding
import ChomskyForm.Proofs.BinaryAlternatives
import ChomskyForm.Proofs.StageOrder
import ChomskyForm.Proofs.Items
import ChomskyForm.Proofs.NormalForm
import ChomskyForm.Proofs.SpanTable
import ChomskyForm.Proofs.Chart
import ChomskyForm.Proofs.Recognition
import ChomskyForm.Proofs.Language
import ChomskyForm.Grammar.Renaming
import ChomskyForm.Proofs.Agreement
import ChomskyForm.Proofs.Arrangement
import ChomskyForm.Proofs.Equivariance
import ChomskyForm.Proofs.Independence
import ChomskyForm.Proofs.Renormalization
import ChomskyForm.Proofs.RoundTrip
import ChomskyForm.Proofs.ReadingBack
import ChomskyForm.Proofs.FeedingBack
import ChomskyForm.Proofs.SparingGeneration
import ChomskyForm.Proofs.VariableWords
import ChomskyForm.Proofs.ExactAnalyses
import ChomskyForm.Proofs.UsefulParts
import ChomskyForm.Proofs.BinarySize
import ChomskyForm.Proofs.CheckedTable
import ChomskyForm.Proofs.Validation
import ChomskyForm.Proofs.FreshSequence
import ChomskyForm.Proofs.PairSearch
import ChomskyForm.Proofs.SearchRounds
import ChomskyForm.Proofs.ListedProductions
import ChomskyForm.Proofs.LatexText
import ChomskyForm.Proofs.PlainText
import ChomskyForm.Proofs.ExactUsage
import ChomskyForm.Proofs.Omissions
import ChomskyForm.Proofs.SaturationRun
import ChomskyForm.Proofs.ChartSweep
