import DBusTypes.Main
import DBusTypes.Json.Parser
import DBusTypes.Proofs.FirstFault
import DBusTypes.Proofs.Sessions
import DBusTypes.Proofs.Tightening
import DBusTypes.Proofs.Descent
import DBusTypes.Proofs.Openings
import DBusTypes.Proofs.Diagnosis
import DBusTypes.Proofs.Walk
import DBusTypes.Proofs.Levels
import DBusTypes.Proofs.Builders
import DBusTypes.Proofs.Consent
import DBusTypes.Proofs.Lines
import DBusTypes.Proofs.Records
import DBusTypes.Proofs.Outcomes
import DBusTypes.Proofs.Redirect
import DBusTypes.Proofs.Failing
import DBusTypes.Proofs.Replies
import DBusTypes.Proofs.Concatenation
import DBusTypes.Proofs.Traversals
import DBusTypes.Proofs.RoundTrip
import DBusTypes.Proofs.Forests
import DBusTypes.Proofs.Listings
import DBusTypes.Proofs.AllOrNone
import DBusTypes.Proofs.FirstStored
import DBusTypes.Proofs.Turns
import DBusTypes.Proofs.Locality
import DBusTypes.Proofs.Wording
