import ServiceSplit.Deploy.Script
import ServiceSplit.Main
import ServiceSplit.Proofs.Artifact.Labels
import ServiceSplit.Proofs.Command.Contents
import ServiceSplit.Proofs.Compilation.Delivery
import ServiceSplit.Proofs.Compilation.Endpoints
import ServiceSplit.Proofs.Compilation.Failures
import ServiceSplit.Proofs.Compilation.FreshNames
import ServiceSplit.Proofs.Deploy.Course
import ServiceSplit.Proofs.Diagnostics
import ServiceSplit.Proofs.Imports.Reconciled
import ServiceSplit.Proofs.Parser.Braces
import ServiceSplit.Proofs.Parser.Progress
import ServiceSplit.Proofs.RoundTrip.Chains
import ServiceSplit.Proofs.RoundTrip.Expressions
import ServiceSplit.Proofs.RoundTrip.Parsed
import ServiceSplit.Proofs.Scope.Balance
import ServiceSplit.Proofs.Sends.Check
import ServiceSplit.Proofs.Service.Posts
import ServiceSplit.Proofs.Service.Rewriting
import ServiceSplit.Proofs.Service.SelfContained
import ServiceSplit.Proofs.SpanLookup
import ServiceSplit.Proofs.Token.Literals
