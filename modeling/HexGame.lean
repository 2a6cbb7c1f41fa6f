import HexGame.Chain.Checked
import HexGame.Main
import HexGame.Proofs.Board.Grid
import HexGame.Proofs.Board.Transition
import HexGame.Proofs.Candidates.Fairness
import HexGame.Proofs.Chain.Course
import HexGame.Proofs.Chain.FoundPath
import HexGame.Proofs.Chain.Monotone
import HexGame.Proofs.Chain.Shortest
import HexGame.Proofs.Coordinator.Farewell
import HexGame.Proofs.Feature.Symmetry
import HexGame.Proofs.MonteCarlo.Continuation
import HexGame.Proofs.MonteCarlo.Harvest
import HexGame.Proofs.MonteCarlo.Means
import HexGame.Proofs.MonteCarlo.Siblings
import HexGame.Proofs.Negamax.Record
import HexGame.Proofs.Negamax.Solve
import HexGame.Proofs.Negamax.Transposition
import HexGame.Proofs.Pattern.Exchange
import HexGame.Proofs.Pattern.Grammar
import HexGame.Proofs.Play.Refusal
import HexGame.Proofs.Play.Secured
