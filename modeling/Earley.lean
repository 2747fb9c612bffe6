import Earley.Chart.Plain
import Earley.Chart.Unindexed
import Earley.Grammar.Addition
import Earley.Grammar.Derivation
import Earley.Main
import Earley.Proofs.Plain.Columns
import Earley.Proofs.Recognition.Language
import Earley.Proofs.Recognition.Rerun
import Earley.Proofs.Recognition.Reserved
import Earley.Proofs.Recognition.Monotone
import Earley.Proofs.Text.Split
import Earley.Proofs.Grammar.Format
import Earley.Proofs.Recognition.Consultation
import Earley.Proofs.Recognition.History
import Earley.Proofs.Recognition.Prefix
import Earley.Proofs.Recognition.Reachable
import Earley.Proofs.Recognition.WellFormed
import Earley.Proofs.CommandLine.Verdict
import Earley.Proofs.Grammar.Passes
import Earley.Proofs.Recognition.Rooted
import Earley.Proofs.Recognition.Steps
import Earley.Proofs.Text.Decoding
import Earley.Proofs.CommandLine.Status
import Earley.Proofs.Recognition.Unindexed
import Earley.Proofs.Chart.Ending
import Earley.Proofs.Recognition.Emptiness
import Earley.Proofs.Recognition.Size
import Earley.Proofs.Chart.Appending
import Earley.Proofs.Chart.Records
import Earley.Proofs.Grammar.Joined
import Earley.Proofs.Chart.Listing
import Earley.Proofs.CommandLine.Loading
import Earley.Proofs.Recognition.Listing
import Earley.Proofs.Dotted
