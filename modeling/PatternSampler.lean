import PatternSampler.IntervalSet.Lemmas
import PatternSampler.Main
import PatternSampler.Proofs.CharClass.Algebra
import PatternSampler.Proofs.CharClass.Canonical
import PatternSampler.Proofs.CharClass.Count
import PatternSampler.Proofs.CharClass.Enumeration
import PatternSampler.Proofs.CharClass.Predefined
import PatternSampler.Proofs.CharClass.Reachable
import PatternSampler.Proofs.CharClass.Selection
import PatternSampler.Proofs.CharClass.WellFormed
import PatternSampler.Proofs.Generation.Alike
import PatternSampler.Proofs.Generation.Conforming
import PatternSampler.Proofs.Generation.Derives
import PatternSampler.Proofs.Generation.Ensures
import PatternSampler.Proofs.Generation.Exposure
import PatternSampler.Proofs.Generation.Failure
import PatternSampler.Proofs.Generation.Reservation
import PatternSampler.Proofs.Generation.Steering
import PatternSampler.Proofs.Grammar.Basic
import PatternSampler.Proofs.Grammar.Brackets
import PatternSampler.Proofs.Grammar.Escapes
import PatternSampler.Proofs.Grammar.Listing
import PatternSampler.Proofs.Grammar.Reading
import PatternSampler.Proofs.Grammar.Tokens
import PatternSampler.Proofs.Grammar.Written
import PatternSampler.Proofs.IntervalSet.Canonical
import PatternSampler.Proofs.IntervalSet.Complement
import PatternSampler.Proofs.IntervalSet.Elements
import PatternSampler.Proofs.IntervalSet.Equality
import PatternSampler.Proofs.IntervalSet.History
import PatternSampler.Proofs.IntervalSet.Observers
import PatternSampler.Proofs.IntervalSet.Search
import PatternSampler.Proofs.IntervalSet.Splice
import PatternSampler.Proofs.Loop
import PatternSampler.Proofs.Matching.Checked
import PatternSampler.Proofs.Matching.Copies
import PatternSampler.Proofs.Matching.Exact
import PatternSampler.Proofs.Matching.Language
import PatternSampler.Proofs.Matching.Leads
import PatternSampler.Proofs.Matching.Moves
import PatternSampler.Proofs.Matching.Rounds
import PatternSampler.Proofs.Matching.Termination
import PatternSampler.Proofs.Matching.Width
import PatternSampler.Proofs.Pattern.Ancestors
import PatternSampler.Proofs.Pattern.Arena
import PatternSampler.Proofs.Pattern.Composition
import PatternSampler.Proofs.Pattern.Eligible
import PatternSampler.Proofs.Pattern.Enclosed
import PatternSampler.Proofs.Pattern.Entries
import PatternSampler.Proofs.Pattern.Errors
import PatternSampler.Proofs.Pattern.Literals
import PatternSampler.Proofs.Pattern.Macros
import PatternSampler.Proofs.Pattern.Markers
import PatternSampler.Proofs.Pattern.Routes
import PatternSampler.Proofs.Pattern.Tree
import PatternSampler.Proofs.Pattern.WellFormed
import PatternSampler.Proofs.Phrase.Advance
import PatternSampler.Proofs.Phrase.Enclosing
import PatternSampler.Proofs.Phrase.Framing
import PatternSampler.Proofs.Phrase.Language
import PatternSampler.Proofs.Phrase.Likeness
import PatternSampler.Proofs.Phrase.Marking
import PatternSampler.Proofs.Phrase.Numbering
import PatternSampler.Proofs.Phrase.Openings
import PatternSampler.Proofs.Phrase.OwnMarks
import PatternSampler.Proofs.Phrase.Pieces
import PatternSampler.Proofs.Phrase.Places
import PatternSampler.Proofs.Phrase.Reading
import PatternSampler.Proofs.Phrase.Stamps
import PatternSampler.Proofs.Phrase.Step
import PatternSampler.Proofs.Phrase.Tally
import PatternSampler.Proofs.Phrase.Twins
import PatternSampler.Proofs.Phrase.Unmarked
import PatternSampler.Proofs.Phrase.WellFormed
import PatternSampler.Proofs.Safety
import PatternSampler.Proofs.Synthesis
import PatternSampler.Proofs.Token.Bounds
import PatternSampler.Proofs.Token.Errors
import PatternSampler.Proofs.Token.Inside
import PatternSampler.Proofs.Token.Locality
import PatternSampler.Proofs.Token.WellFormed
import PatternSampler.Proofs.Token.Writing
