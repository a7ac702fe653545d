import GraphQL.Document.Json
import GraphQL.Grammar.Standard
import GraphQL.Main
import GraphQL.Reading
import GraphQL.Proofs.Soundness
import GraphQL.Proofs.TokenAccounting
import GraphQL.Proofs.BuildingDocument
import GraphQL.Proofs.StandardFollow
import GraphQL.Proofs.Lockstep
import GraphQL.Proofs.Exchange
import GraphQL.Proofs.FaithfulDocuments
import GraphQL.Proofs.ConstantPlaces
import GraphQL.Proofs.Independence
import GraphQL.Proofs.Reentry
import GraphQL.Proofs.FirstMistake
import GraphQL.Proofs.MistakeOrder
import GraphQL.Proofs.Placement
import GraphQL.Proofs.Rejoining
import GraphQL.Proofs.NestingDocument
import GraphQL.Proofs.Snippets
import GraphQL.Proofs.OpenStrings
import GraphQL.Proofs.Verdicts
import GraphQL.Proofs.Decisions
import GraphQL.Proofs.Enumeration
import GraphQL.Proofs.Progress
import GraphQL.Proofs.DepthLimit
import GraphQL.Proofs.Deepening
import GraphQL.Proofs.Overriding
import GraphQL.Proofs.RelaxingDocument
import GraphQL.Proofs.ReservedWords
import GraphQL.Proofs.LongestLexemes
import GraphQL.Proofs.BlockStrings
import GraphQL.Proofs.InlineStrings
