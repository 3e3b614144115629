import Phrasebook.Files.Memory
import Phrasebook.Main
import Phrasebook.Proofs.Catalogue.Start
import Phrasebook.Proofs.Compiled.Rewriting
import Phrasebook.Proofs.Plain.LineEndings
import Phrasebook.Proofs.Plain.Rewriting
import Phrasebook.Proofs.Label.Order
import Phrasebook.Proofs.Label.Bisection
import Phrasebook.Proofs.Lookup
import Phrasebook.Proofs.Catalogue.Tables
import Phrasebook.Proofs.Catalogue.Serving
import Phrasebook.Proofs.Catalogue.MapLoading
import Phrasebook.Proofs.Catalogue.LongestLabel
import Phrasebook.Proofs.Catalogue.EmptyTables
import Phrasebook.Proofs.TableOrder
import Phrasebook.Proofs.Text.Utf8
import Phrasebook.Proofs.Catalogue.LabelSearch
import Phrasebook.Proofs.Catalogue.MissingLabels
import Phrasebook.Proofs.Catalogue.WellFormed
import Phrasebook.Proofs.Conversion
import Phrasebook.Proofs.Compiled.CutShort
import Phrasebook.Proofs.FailingDevices
import Phrasebook.Proofs.LoadedTable
import Phrasebook.Proofs.Plain.Gathered
import Phrasebook.Proofs.Compiling
import Phrasebook.Proofs.Plain.Appended
import Phrasebook.Proofs.Plain.NormalForm
import Phrasebook.Proofs.Plain.Counting
import Phrasebook.Proofs.Plain.SpanForm
import Phrasebook.Proofs.CommandLine.LoadedFile
import Phrasebook.Proofs.CommandLine.Listings
import Phrasebook.Proofs.CommandLine.Converting
import Phrasebook.Proofs.Text.StoredForm
import Phrasebook.Proofs.Label.Sorted
import Phrasebook.Proofs.Label.CodePoints
import Phrasebook.Proofs.Plain.EscapedText
import Phrasebook.Proofs.Files.Memory
import Phrasebook.Proofs.Path
import Phrasebook.Proofs.Plain.EscapeFlag
import Phrasebook.Proofs.Settings.Saved
