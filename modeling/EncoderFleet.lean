import EncoderFleet.Fleet.Schedule
import EncoderFleet.Fleet.Surroundings
import EncoderFleet.Process.Listing
import EncoderFleet.Proofs.Fleet.Deeds
import EncoderFleet.Proofs.Data.Totals
import EncoderFleet.Proofs.Fleet.Frames
import EncoderFleet.Proofs.Fleet.Steps
import EncoderFleet.Proofs.Fleet.Jobs
import EncoderFleet.Proofs.Fleet.Turns
import EncoderFleet.Proofs.Fleet.Lives
import EncoderFleet.Proofs.Fleet.Records
import EncoderFleet.Proofs.Device.Tickets
import EncoderFleet.Proofs.Fleet.Permits
import EncoderFleet.Proofs.Fleet.Balance
import EncoderFleet.Proofs.Fleet.Epochs
import EncoderFleet.Proofs.Fleet.Overtaking
import EncoderFleet.Proofs.Fleet.Fates
import EncoderFleet.Proofs.Flv.Cuts
import EncoderFleet.Proofs.Jpeg.Cuts
import EncoderFleet.Proofs.Live.Delivery
import EncoderFleet.Proofs.Live.Incarnations
import EncoderFleet.Proofs.Live.Decodability
import EncoderFleet.Proofs.Fleet.Pumps
import EncoderFleet.Proofs.Fleet.Idempotence
import EncoderFleet.Proofs.Flv.RoundTrip
import EncoderFleet.Proofs.Process.Visits
import EncoderFleet.Proofs.Process.Recognition
import EncoderFleet.Proofs.Process.Orphans
import EncoderFleet.Proofs.Process.Cleanups
import EncoderFleet.Proofs.Fleet.LiveHub
import EncoderFleet.Proofs.Jpeg.Grammar
import EncoderFleet.Proofs.Jpeg.Pieces
import EncoderFleet.Proofs.Fleet.Exclusion
import EncoderFleet.Proofs.Fleet.Freshness
import EncoderFleet.Proofs.Fleet.AutomaticStarts
import EncoderFleet.Proofs.Document.Forms
import EncoderFleet.Proofs.Files.Replacing
import EncoderFleet.Proofs.Document.Saving
import EncoderFleet.Proofs.Fleet.Changes
import EncoderFleet.Proofs.Fleet.Clock
import EncoderFleet.Proofs.Fleet.Books
import EncoderFleet.Proofs.Fleet.Seclusion
import EncoderFleet.Proofs.Fleet.FailedStarts
import EncoderFleet.Proofs.Setup.Identities
import EncoderFleet.Proofs.Setup.Reloading
import EncoderFleet.Proofs.Fleet.Calls
import EncoderFleet.Proofs.Fleet.Restarts
import EncoderFleet.Proofs.Setup.ActiveProfile
import EncoderFleet.Proofs.Setup.Seeding
import EncoderFleet.Proofs.Setup.ProfileNames
import EncoderFleet.Proofs.Text.Quoting
import EncoderFleet.Proofs.Fleet.ExitCodes
import EncoderFleet.Proofs.Fleet.Cancellation
import EncoderFleet.Proofs.Fleet.Indifference
import EncoderFleet.Proofs.Fleet.Confinement
import EncoderFleet.Proofs.Fleet.Progress
import EncoderFleet.Proofs.Fleet.Batches
import EncoderFleet.Proofs.Setup.KeyedSources
import EncoderFleet.Proofs.Jpeg.Waiting
import EncoderFleet.Proofs.Flv.Waiting
import EncoderFleet.Proofs.Process.Listings
