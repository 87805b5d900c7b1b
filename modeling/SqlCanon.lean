import SqlCanon.Main
import SqlCanon.Proofs.Backticks
import SqlCanon.Proofs.Capacity
import SqlCanon.Proofs.CaseBlind
import SqlCanon.Proofs.Copying
import SqlCanon.Proofs.Coverage
import SqlCanon.Proofs.Delimiters
import SqlCanon.Proofs.Filler
import SqlCanon.Proofs.Lines
import SqlCanon.Proofs.Locality
import SqlCanon.Proofs.Operators
import SqlCanon.Proofs.OutputSize
import SqlCanon.Proofs.Placeholders
import SqlCanon.Proofs.Recasing
import SqlCanon.Proofs.Redaction
import SqlCanon.Proofs.Separators
import SqlCanon.Proofs.SettingsFile
import SqlCanon.Proofs.StringValues
import SqlCanon.Proofs.Trees
import SqlCanon.Session
