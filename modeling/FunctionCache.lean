import FunctionCache.Program
import FunctionCache.Config
import FunctionCache.Main
import FunctionCache.Proofs.Cache.Entries
import FunctionCache.Proofs.Cache.PairLog
import FunctionCache.Proofs.Tables.InsertionOrder
import FunctionCache.Proofs.Programs.Transparency
import FunctionCache.Proofs.Programs.Numbering
import FunctionCache.Proofs.Programs.Accounting
import FunctionCache.Proofs.Programs.Failures
import FunctionCache.Proofs.Programs.Canonical
import FunctionCache.Proofs.Programs.Stacked
import FunctionCache.Proofs.Programs.Replay
import FunctionCache.Proofs.RationalFunction.Constants
import FunctionCache.Proofs.RationalFunction.Star
import FunctionCache.Proofs.RationalFunction.Texts
import FunctionCache.Proofs.RationalFunction.Identification
import FunctionCache.Proofs.RationalFunction.Uniqueness
import FunctionCache.Proofs.Polynomial.Laws
import FunctionCache.Proofs.Polynomial.MixedLengths
import FunctionCache.Proofs.Polynomial.Quotients
import FunctionCache.Proofs.Programs.Laws
import FunctionCache.Proofs.RationalFunction.Signs
import FunctionCache.Proofs.RationalFunction.Constraints
import FunctionCache.Proofs.RationalFunction.Quotients
import FunctionCache.Proofs.Polynomial.Quotients
