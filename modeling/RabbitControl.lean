import RabbitControl.LostChanges
import RabbitControl.Initialize
import RabbitControl.Removal
import RabbitControl.Exposure
import RabbitControl.Pairing
import RabbitControl.CompleteFlush
import RabbitControl.Restart
import RabbitControl.Transporters
import RabbitControl.AddressMaps
import RabbitControl.SharedValue
import RabbitControl.NegativeLengths
import RabbitControl.Truncation
import RabbitControl.Lib.Local
import RabbitControl.LocalParsers
import RabbitControl.Strings
import RabbitControl.ShortForm
import RabbitControl.UpdateCallbacks
import RabbitControl.CacheCallbacks
import RabbitControl.UnsetMembers
import RabbitControl.AnyOrder
import RabbitControl.Framing
import RabbitControl.HostOrder
import RabbitControl.CustomTypes
import RabbitControl.Insensitive
import RabbitControl.Rebuilding
import RabbitControl.Deliveries
import RabbitControl.Feed
import RabbitControl.Rounds
import RabbitControl.SetUp
import RabbitControl.ActionQueue
