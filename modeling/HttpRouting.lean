import HttpRouting.Main
import HttpRouting.Proofs.Access.Safety
import HttpRouting.Proofs.Path.FormDecoding
import HttpRouting.Proofs.Path.Lexical
import HttpRouting.Proofs.Pattern.Overlap
import HttpRouting.Proofs.RouteTable.Reordering
import HttpRouting.Proofs.Router.Allowed
import HttpRouting.Proofs.Router.Nesting
import HttpRouting.Proofs.Router.Records
import HttpRouting.Proofs.Tree.CaseExact
import HttpRouting.Proofs.Tree.Conflicts
import HttpRouting.Proofs.Tree.Visits
import HttpRouting.RouteTable.Reading
