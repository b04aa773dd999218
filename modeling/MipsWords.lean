import MipsWords.Disassembly
import MipsWords.Json.Grammar
import MipsWords.Main
import MipsWords.Proofs.BinaryWords
import MipsWords.Proofs.CommandLines
import MipsWords.Proofs.Extraction
import MipsWords.Proofs.Finality
import MipsWords.Proofs.HexWords
import MipsWords.Proofs.Listing
import MipsWords.Proofs.Logging
import MipsWords.Proofs.OutputLines
import MipsWords.Proofs.Selection
import MipsWords.Proofs.SettingsFile
import MipsWords.Proofs.StartUp
import MipsWords.Proofs.TableText
import MipsWords.Proofs.Wording
import MipsWords.Settings.Schema
