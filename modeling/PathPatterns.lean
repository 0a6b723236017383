import PathPatterns.Disk.Lister
import PathPatterns.Enumeration.Basic
import PathPatterns.MemoryTree.Basic
import PathPatterns.Proofs.Disk.Listing
import PathPatterns.Proofs.Disk.Unfollowed
import PathPatterns.Proofs.Enumeration.Confined
import PathPatterns.Proofs.Enumeration.Drive
import PathPatterns.Proofs.Enumeration.Independent
import PathPatterns.Proofs.Enumeration.Requests
import PathPatterns.Proofs.Enumeration.Selection
import PathPatterns.Proofs.Enumeration.Sound
import PathPatterns.Proofs.Grammar.BracketOrder
import PathPatterns.Proofs.Grammar.Display
import PathPatterns.Proofs.Grammar.Patterns
import PathPatterns.Proofs.Matching.Doubled
import PathPatterns.Proofs.Matching.Token
import PathPatterns.Proofs.MemoryTree.Climb
import PathPatterns.Proofs.MemoryTree.Closed
import PathPatterns.Proofs.MemoryTree.Contents
import PathPatterns.Proofs.MemoryTree.Exact
import PathPatterns.Proofs.MemoryTree.Finite
import PathPatterns.Proofs.MemoryTree.Growth
import PathPatterns.Proofs.MemoryTree.Lawful
import PathPatterns.Proofs.MemoryTree.Trailed
import PathPatterns.Proofs.Path.ByteOrder
import PathPatterns.Proofs.Path.Keys
import PathPatterns.Proofs.Path.Spelling
import PathPatterns.Proofs.Registry.Absorption
import PathPatterns.Proofs.Registry.Runs
import PathPatterns.Proofs.Registry.Union
import PathPatterns.Proofs.Separators
import PathPatterns.Regex.ByteRange
import PathPatterns.Registry
