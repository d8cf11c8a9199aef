import CxxUnits.Editing.Completion
import CxxUnits.Editing.Highlight
import CxxUnits.Main
import CxxUnits.Token.Longest
import CxxUnits.Token.Script
import CxxUnits.Proofs.Balance.Reading
import CxxUnits.Proofs.Balance.Judgement
import CxxUnits.Proofs.Balance.SoftAngles
import CxxUnits.Proofs.Balance.Lines
import CxxUnits.Proofs.Balance.Cuts
import CxxUnits.Proofs.Turn.Calls
import CxxUnits.Proofs.Session.Run
import CxxUnits.Proofs.Session.Collected
import CxxUnits.Proofs.Session.Units
import CxxUnits.Proofs.Token.Lexemes
import CxxUnits.Proofs.Token.Joined
import CxxUnits.Proofs.Session.Tokens
import CxxUnits.Proofs.Session.Consistent
import CxxUnits.Proofs.Session.Feeding
import CxxUnits.Proofs.Text.Encoding
import CxxUnits.Proofs.Token.Tiling
import CxxUnits.Proofs.Batch.Lines
import CxxUnits.Proofs.Batch.Stretches
import CxxUnits.Proofs.Batch.Resplit
import CxxUnits.Proofs.Batch.ReadFault
import CxxUnits.Proofs.Token.LongestMatch
import CxxUnits.Proofs.Token.Opener
import CxxUnits.Proofs.Token.Apart
import CxxUnits.Proofs.Token.Fragments
import CxxUnits.Proofs.Turn.Literals
import CxxUnits.Proofs.Turn.Stopping
import CxxUnits.Proofs.Token.RawString
import CxxUnits.Proofs.Session.Silence
import CxxUnits.Proofs.Session.Closing
import CxxUnits.Proofs.Token.Quoted
import CxxUnits.Proofs.Editing.Colouring
import CxxUnits.Proofs.Text.ByteOrder
import CxxUnits.Proofs.Editing.Completing
import CxxUnits.Proofs.Editing.Refining
import CxxUnits.Proofs.Token.LineEnds
import CxxUnits.Proofs.Token.FreeWords
