import MessageBroker.ByteStrings
import MessageBroker.TransitionRuns
import MessageBroker.WireFormat
import MessageBroker.PacketFraming
import MessageBroker.FramedStream
import MessageBroker.RegexSyntax
import MessageBroker.RegexMatching
import MessageBroker.TopicMatching
import MessageBroker.TopicLevels
import MessageBroker.FramingFailures
import MessageBroker.ClientTable
import MessageBroker.OnlineFlags
import MessageBroker.RequestConfinement
import MessageBroker.BrokerRefinement
import MessageBroker.ServerExits
import MessageBroker.TopicMetacharacters
import MessageBroker.NotificationBlock
import MessageBroker.NotificationDisplay
import MessageBroker.ClientIdentity
import MessageBroker.DescriptorLifetimes
import MessageBroker.PollGrowth
import MessageBroker.RequestReplay
import MessageBroker.Subscriptions
import MessageBroker.ClientLinks
import MessageBroker.OrderlyExit
import MessageBroker.NumberDisplay
import MessageBroker.PrintedNumbers
import MessageBroker.CommandGrammar
import MessageBroker.InputBuffering
import MessageBroker.TopicReading
import MessageBroker.ServiceLoop
import MessageBroker.LoopProgress
import MessageBroker.LoopSettling
import MessageBroker.LoopInputs
import MessageBroker.LoopDelivery
import MessageBroker.StreamDelivery
import MessageBroker.SubscriberOutput
import MessageBroker.Conversations
import MessageBroker.WholeSystem
import MessageBroker.RedundantRequests
import MessageBroker.EventualDelivery
