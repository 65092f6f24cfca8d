import LuaGloss.Main
import LuaGloss.Proofs.Syntax.Derivation
import LuaGloss.Proofs.Syntax.Reading
import LuaGloss.Proofs.Syntax.Soundness
import LuaGloss.Proofs.Syntax.Completeness
import LuaGloss.Proofs.Syntax.Acceptance
import LuaGloss.Proofs.Docs.Links
import LuaGloss.Proofs.Docs.RefId
import LuaGloss.Proofs.Item.WellFormed
import LuaGloss.Proofs.Docs.Invariant
import LuaGloss.Proofs.Catalog.Step
import LuaGloss.Proofs.Comment.Course
import LuaGloss.Proofs.Comment.Steps
import LuaGloss.Proofs.Source.Steps
import LuaGloss.Proofs.Catalog.Finalize
import LuaGloss.Proofs.Page.Definitions
import LuaGloss.Proofs.Item.Tree
import LuaGloss.Proofs.Page.View
import LuaGloss.Proofs.Page.Layout
import LuaGloss.Proofs.Page.Parts
import LuaGloss.Proofs.Page.Settled
import LuaGloss.Proofs.Files.Path
import LuaGloss.Proofs.Files.Replay
import LuaGloss.Proofs.Page.Press
import LuaGloss.Proofs.Run.Steps
import LuaGloss.Proofs.Page.Items
import LuaGloss.Proofs.Run.Coverage
import LuaGloss.Proofs.Run.Identity
import LuaGloss.Proofs.Run.Attachment
import LuaGloss.Proofs.Token.Extent
import LuaGloss.Proofs.Token.Tiling
import LuaGloss.Proofs.Comment.Effects
import LuaGloss.Proofs.Source.Bodies
import LuaGloss.Proofs.Item.Growth
import LuaGloss.Proofs.Source.Events
import LuaGloss.Proofs.Run.References
import LuaGloss.Proofs.Item.Graph
import LuaGloss.Proofs.Syntax.Comparison
import LuaGloss.Proofs.Syntax.Congruence
import LuaGloss.Proofs.Syntax.Likeness
import LuaGloss.Proofs.Source.NonInterference
import LuaGloss.Proofs.Docs.Membership
import LuaGloss.Proofs.Source.Walk
import LuaGloss.Proofs.Run.Resolution
import LuaGloss.Proofs.Comment.Membership
import LuaGloss.Proofs.Source.Regions
import LuaGloss.Proofs.Source.Membership
import LuaGloss.Proofs.Docs.Forest
import LuaGloss.Proofs.Docs.Pruning
import LuaGloss.Proofs.Run.Grouping
import LuaGloss.Proofs.Run.Membership
import LuaGloss.Proofs.Item.Ownership
import LuaGloss.Proofs.Run.Ownership
import LuaGloss.Proofs.Run.Files
import LuaGloss.Proofs.Run.Language
import LuaGloss.Proofs.Xml.Grammar
import LuaGloss.Proofs.Page.Markup
import LuaGloss.Proofs.Run.Markup
import LuaGloss.Proofs.Page.Contents
import LuaGloss.Proofs.Run.Contents
import LuaGloss.Proofs.Run.Repetition
import LuaGloss.Proofs.Token.Literal
import LuaGloss.Proofs.Token.Lexeme
import LuaGloss.Proofs.Token.Delimiting
import LuaGloss.Proofs.Token.LongBrackets
import LuaGloss.Proofs.Token.Numerals
import LuaGloss.Proofs.Item.Overloads
import LuaGloss.Proofs.Docs.FirstFree
import LuaGloss.Proofs.Docs.Face
import LuaGloss.Proofs.Comment.Gist
import LuaGloss.Proofs.Comment.Lexing
import LuaGloss.Proofs.Comment.Prose
import LuaGloss.Proofs.Source.LineComments
import LuaGloss.Proofs.Syntax.Tree
import LuaGloss.Proofs.Syntax.Growth
import LuaGloss.Proofs.Syntax.Denotation
import LuaGloss.Proofs.Comment.Footnotes
import LuaGloss.Proofs.Comment.Log
import LuaGloss.Proofs.Source.Passages
import LuaGloss.Proofs.Run.CommentLog
import LuaGloss.Proofs.Page.Accompaniment
import LuaGloss.Proofs.Run.Footnotes
import LuaGloss.Proofs.Syntax.Arrangement
import LuaGloss.Proofs.Syntax.Capture
import LuaGloss.Proofs.Syntax.Trail
import LuaGloss.Proofs.Source.Handling
import LuaGloss.Proofs.Source.Delivery
import LuaGloss.Proofs.Token.Channels
import LuaGloss.Proofs.Source.Failure
import LuaGloss.Proofs.Item.QualifiedNames
import LuaGloss.Proofs.Run.QualifiedNames
import LuaGloss.Proofs.Comment.BaseTypes
import LuaGloss.Proofs.Comment.DefaultTags
import LuaGloss.Proofs.Page.Paragraphs
import LuaGloss.Proofs.Syntax.Termination
